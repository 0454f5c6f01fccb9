import Puregit.Server.Holdings
import Puregit.Server.Serve

/-! # The frontends agree

A fetch is served in one stateless request, over a stream, or by a v2 command.  A
session answers a conversation as the stateless frontend answers all of it at once, byte
for byte, however its haves are split into rounds: what a session reads is a prefix of
the packets, `packetsOf_append`, and each packet moves both negotiations alike,
`haveRounds_done`.

The planner is asked three times with different haves: with none for the boundary a
deepening is told of first, with the common ones for the pack, and by a v2 command with
all that were announced.  A plan depends on its haves through what they say of the wants
and through which of them the repository contains, `plan_congr`, so the last two agree
unless a wanted id is announced that the repository lacks.
-/
namespace Puregit.Server
open ObjectDatabase ObjectGraph PktLine Relation

variable {D : Type} [ObjectDatabase D] {odb : D} {refs : RefView}

/-! ## What a plan takes from its haves -/

theorem assumed_congr {haves haves' : List ObjectId} {cut : BTreeSet ObjectId} {x : ObjectId}
    (hsame : ∀ x, x ∈ haves' ↔ x ∈ haves) : Assumed odb haves' cut x ↔ Assumed odb haves cut x := by
  simp only [Assumed, KnownAt, hsame]

theorem clientHoldings_congr {haves haves' : List ObjectId} {cut r : BTreeSet ObjectId}
    (hsame : ∀ x, x ∈ haves' ↔ x ∈ haves) (h : clientHoldings odb haves cut = .ok r) :
    clientHoldings odb haves' cut = .ok r := by
  have hsub : ∀ x ∈ haves', x ∈ haves := fun x hx => (hsame x).mp hx
  have htotal : ∃ r', clientHoldings odb haves' cut = .ok r' := by
    rw [clientHoldings] at h ⊢
    split
    · rename_i hempty
      rw [if_pos hempty] at h
      exact reachableObjectsExcluding_total hsub h
    · rename_i hempty
      rw [if_neg hempty] at h
      obtain ⟨view, hview, -⟩ := except_bind_ok.mp h
      obtain ⟨view', hview'⟩ := shallowObjectsToSend_total (by simp [u32Max]) hsame hview
      exact ⟨_, except_bind_ok.mpr ⟨view', hview', rfl⟩⟩
  obtain ⟨r', hr'⟩ := htotal
  have heq : r' = r := BTreeSet.ext_mem fun x => by
    rw [mem_clientHoldings hr', mem_clientHoldings h, assumed_congr hsame]
  rw [hr', heq]

/-- **A plan depends on its haves through those the repository contains, and through
which wants are among them.** -/
theorem plan_congr {req : Want} {haves : List ObjectId} {p : Plan}
    (hsame : ∀ x, x ∈ haves.filter (contains odb) ↔ x ∈ req.haves.filter (contains odb))
    (hasked : Want.asked { req with haves := haves } = req.asked)
    (h : plan odb refs req = .ok p) : plan odb refs { req with haves := haves } = .ok p := by
  obtain ⟨known, hknown, h⟩ := except_bind_ok.mp h
  refine except_bind_ok.mpr ⟨known, clientHoldings_congr hsame hknown, ?_⟩
  rw [hasked]
  exact h

/-- What a plan says of the boundary does not depend on the haves. -/
theorem plan_boundary_congr {req : Want} (haves : List ObjectId) {p p' : Plan}
    (h : plan odb refs req = .ok p) (h' : plan odb refs { req with haves := haves } = .ok p') :
    p'.shallow = p.shallow ∧ p'.unshallow = p.unshallow := by
  obtain ⟨known, -, h⟩ := except_bind_ok.mp h
  obtain ⟨known', -, h'⟩ := except_bind_ok.mp h'
  simp only at h h'
  split at h
  · rename_i hactive
    rw [if_pos hactive] at h'
    obtain ⟨objects, -, h⟩ := except_bind_ok.mp h
    obtain ⟨objects', -, h'⟩ := except_bind_ok.mp h'
    cases h
    cases h'
    exact ⟨rfl, rfl⟩
  · rename_i hactive
    rw [if_neg hactive] at h'
    obtain ⟨t, ht, h⟩ := except_bind_ok.mp h
    obtain ⟨t', ht', h'⟩ := except_bind_ok.mp h'
    obtain rfl : t = t' := Except.ok.inj (ht.symm.trans ht')
    obtain ⟨s, hs, h⟩ := except_bind_ok.mp h
    obtain ⟨s', hs', h'⟩ := except_bind_ok.mp h'
    obtain rfl : s = s' := Except.ok.inj (hs.symm.trans hs')
    obtain ⟨roots, -, h⟩ := except_bind_ok.mp h
    obtain ⟨objects, -, h⟩ := except_bind_ok.mp h
    obtain ⟨objects₂, -, h⟩ := except_bind_ok.mp h
    obtain ⟨roots', -, h'⟩ := except_bind_ok.mp h'
    obtain ⟨objects', -, h'⟩ := except_bind_ok.mp h'
    obtain ⟨objects₂', -, h'⟩ := except_bind_ok.mp h'
    cases h
    cases h'
    exact ⟨rfl, rfl⟩

theorem includeTags_boundary {tags : List ObjectId} {p p' : Plan}
    (h : includeTags odb tags p = .ok p') :
    p'.shallow = p.shallow ∧ p'.unshallow = p.unshallow := by
  induction tags generalizing p with
  | nil =>
      cases h
      exact ⟨rfl, rfl⟩
  | cons tag tags ih =>
      rw [includeTags] at h
      obtain ⟨⟨chain, target⟩, -, h⟩ := except_bind_ok.mp h
      simp only at h
      split at h
      · have hrest := ih h
        exact hrest
      · exact ih h

theorem withTags_boundary {opts : PackOptions} {p p' : Plan}
    (h : withTags odb refs opts p = .ok p') :
    p'.shallow = p.shallow ∧ p'.unshallow = p.unshallow := by
  rw [withTags] at h
  split at h
  · exact includeTags_boundary h
  · cases h
    exact ⟨rfl, rfl⟩

theorem planPack_congr {hasher : Hasher} {opts : PackOptions} {req : Want} {haves : List ObjectId}
    {r : Plan × PackWriter}
    (hsame : ∀ x, x ∈ haves.filter (contains odb) ↔ x ∈ req.haves.filter (contains odb))
    (hasked : Want.asked { req with haves := haves } = req.asked)
    (h : planPack hasher odb refs req opts = .ok r) :
    planPack hasher odb refs { req with haves := haves } opts = .ok r := by
  obtain ⟨p, hp, h⟩ := except_bind_ok.mp h
  exact except_bind_ok.mpr ⟨p, plan_congr hsame hasked hp, h⟩

/-! ## The packets of a conversation -/

theorem packetsOf_fuel {fuel m : Nat} {input : Bytes} (h : input.length < fuel)
    (h' : input.length < m) : packetsOf fuel input = packetsOf m input := by
  induction fuel generalizing m input with
  | zero => omega
  | succ fuel ih =>
      obtain ⟨m, rfl⟩ : ∃ k, m = k + 1 := ⟨m - 1, by omega⟩
      rw [packetsOf, packetsOf]
      split
      · rename_i p n hd
        have hlen := decode_consumed hd
        have hdrop : (input.drop n).length < fuel ∧ (input.drop n).length < m := by
          rw [List.length_drop]
          omega
        rw [ih hdrop.1 hdrop.2]
      · rfl

/-- A session reads the packets of a whole buffer before those that follow it. -/
theorem packetsOf_append {input : Bytes} {ps : List Packet} (h : decodeAll input = .ok ps) :
    ∃ items : List (Packet × Bytes), items.map Prod.fst = ps ∧
      (items.map Prod.snd).flatten = input ∧
      ∀ rest, decodeAll (input ++ rest) = (decodeAll rest).map (ps ++ ·) ∧
        packetsOf ((input ++ rest).length + 1) (input ++ rest) =
          items ++ packetsOf (rest.length + 1) rest := by
  induction hn : input.length using Nat.strong_induction_on generalizing input ps with
  | _ n ih =>
    by_cases hempty : input = []
    · subst hempty
      cases h
      refine ⟨[], rfl, rfl, fun rest => ⟨?_, rfl⟩⟩
      show decodeAll rest = _
      cases decodeAll rest <;> rfl
    · obtain ⟨p, len, hd⟩ : ∃ p len, decode input = .ok (some (p, len)) := by
        rw [decodeAll, decodeGo, if_neg (by simpa using hempty)] at h
        split at h
        · cases h
        · cases h
        · rename_i p len hd
          exact ⟨p, len, hd⟩
      obtain ⟨hlen, hle⟩ := decode_consumed hd
      rw [decodeAll_eq hd] at h
      obtain ⟨ps', hps, rfl⟩ := except_map_ok.mp h
      obtain ⟨items, hfst, hsnd, hrest⟩ := ih (input.drop len).length
        (by rw [List.length_drop]; omega) hps rfl
      refine ⟨(p, input.take len) :: items, by rw [List.map_cons, hfst], ?_, fun rest => ?_⟩
      · rw [List.map_cons, List.flatten_cons, hsnd]
        exact List.take_append_drop len input
      · have hd' := decode_append hd rest
        have hdrop : (input ++ rest).drop len = input.drop len ++ rest :=
          List.drop_append_of_le_length hle
        obtain ⟨hall, hpackets⟩ := hrest rest
        constructor
        · rw [decodeAll_eq hd', hdrop, hall]
          cases decodeAll rest <;> rfl
        · rw [packetsOf, hd']
          simp only [hdrop, List.take_append_of_le_length hle, List.cons_append]
          rw [packetsOf_fuel (m := (input.drop len ++ rest).length + 1)
            (by simp only [List.length_append, List.length_drop]; omega)
              (Nat.lt_succ_self _), hpackets]

/-- A want section that fits is read through its flush. -/
theorem readWants_section {items rest : List (Packet × Bytes)} {raw : Bytes}
    (hflush : ∀ i ∈ items, i.1 ≠ .flush) : ∀ {acc : Bytes},
    acc.length + (items.map Prod.snd).flatten.length + raw.length ≤ maxNegotiationBytes →
    readWants (items ++ (.flush, raw) :: rest) acc =
      .ok (some (acc ++ (items.map Prod.snd).flatten ++ raw, rest)) := by
  induction items with
  | nil =>
      intro acc hsize
      rw [List.map_nil, List.flatten_nil, List.length_nil] at hsize
      rw [List.nil_append, readWants, if_neg (by omega), if_pos rfl]
      simp
  | cons i items ih =>
      intro acc hsize
      rw [List.map_cons, List.flatten_cons, List.length_append] at hsize
      rw [List.cons_append, readWants, if_neg (by omega), if_neg (hflush i List.mem_cons_self),
        ih (fun j hj => hflush j (List.mem_cons_of_mem i hj))
          (by rw [List.length_append]; omega)]
      simp

/-! ## The two negotiations -/

/-- A packet of the rounds before done: a line announces a have, a flush ends a round. -/
def IsRound : Packet → Prop
  | .data d => ∃ hex, stripPrefix? (bytes "have ") (trimTrailingNewline d) = some hex
  | _ => True

/-- The ids the rounds announce. -/
def announced (algo : HashAlgo) (packets : List Packet) : List ObjectId :=
  packets.filterMap fun
    | .data d => (stripPrefix? (bytes "have ") (trimTrailingNewline d)).bind fun hex =>
        (FetchRequest.idLine algo "have: non-utf8" hex).toOption
    | _ => none

section Rounds
variable {wants : List ObjectId} {last : Bytes}

theorem have_common {n n' : Negotiator} {oid : ObjectId} {out : Bytes}
    (hset : ∀ x ∈ n.commonSet, x ∈ n.common) (h : n.have_ odb oid = .ok (n', out)) :
    (∀ x ∈ n'.commonSet, x ∈ n'.common) ∧
      ∀ x, x ∈ n'.common ↔ x ∈ n.common ∨ x = oid ∧ contains odb x = true := by
  rw [Negotiator.have_] at h
  split at h
  · rename_i habsent
    cases h
    refine ⟨hset, fun x => ⟨Or.inl, ?_⟩⟩
    rintro (hx | ⟨rfl, hx⟩)
    · exact hx
    · simp [hx] at habsent
  · rename_i hpresent
    have hfound : contains odb oid = true := by simpa using hpresent
    have hcommon : n'.common = (if n.commonSet.contains oid then n.common else n.common ++ [oid]) ∧
        n'.commonSet = n.commonSet.insert oid := by
      simp only at h
      split at h
      · cases h
        exact ⟨rfl, rfl⟩
      · obtain ⟨line, -, hline⟩ := except_map_ok.mp h
        cases hline
        exact ⟨rfl, rfl⟩
    have hmem : ∀ x, x ∈ n'.common ↔ x ∈ n.common ∨ x = oid := by
      intro x
      rw [hcommon.1]
      split
      · rename_i hin
        have hin' := hset oid (BTreeSet.contains_iff_mem.mp hin)
        constructor
        · exact Or.inl
        · rintro (hx | rfl)
          · exact hx
          · exact hin'
      · simp
    refine ⟨fun x hx => ?_, fun x => ?_⟩
    · rw [hcommon.2] at hx
      rcases BTreeSet.mem_insert.mp hx with rfl | hx
      · exact (hmem x).mpr (Or.inr rfl)
      · exact (hmem x).mpr (Or.inl (hset x hx))
    · rw [hmem]
      constructor
      · rintro (hx | rfl)
        · exact Or.inl hx
        · exact Or.inr ⟨rfl, hfound⟩
      · rintro (hx | ⟨rfl, -⟩)
        · exact Or.inl hx
        · exact Or.inr rfl

theorem flush_common {n n' : Negotiator} {out : Bytes} (h : n.flush odb wants = .ok (n', out)) :
    n'.common = n.common ∧ n'.commonSet = n.commonSet := by
  obtain ⟨ready, -, h⟩ := except_bind_ok.mp h
  simp only at h
  split at h
  · obtain ⟨nak, -, h⟩ := except_bind_ok.mp h
    cases h
    exact ⟨rfl, rfl⟩
  · cases h
    exact ⟨rfl, rfl⟩

theorem done_not_have : stripPrefix? (bytes "have ") (bytes "done") = none := by decide

/-- Rounds that end in done are read to their end, and the common objects are then the
announced ones the repository contains. -/
theorem statelessRounds_done (hlast : trimTrailingNewline last = bytes "done") :
    ∀ {ps : List Packet} {r r' : Rounds}, (∀ p ∈ ps, IsRound p) →
    (∀ x ∈ r.neg.commonSet, x ∈ r.neg.common) →
    statelessRounds odb wants (ps ++ [.data last]) r = .ok r' → r'.done = true ∧
      ∀ x, x ∈ r'.neg.common ↔
        x ∈ r.neg.common ∨ x ∈ announced (algo odb) ps ∧ contains odb x = true := by
  intro ps
  induction ps with
  | nil =>
      intro r r' _ _ h
      rw [List.nil_append, statelessRounds] at h
      simp only [hlast, done_not_have, if_true] at h
      cases h
      exact ⟨rfl, fun x => by simp [announced]⟩
  | cons p ps ih =>
      intro r r' hround hset h
      have hrest : ∀ q ∈ ps, IsRound q := fun q hq => hround q (List.mem_cons_of_mem p hq)
      rw [List.cons_append] at h
      cases p with
      | data d =>
          obtain ⟨hex, hhex⟩ := hround (.data d) List.mem_cons_self
          rw [statelessRounds] at h
          simp only [hhex] at h
          obtain ⟨oid, hoid, h⟩ := except_bind_ok.mp h
          obtain ⟨⟨neg, out⟩, hneg, h⟩ := except_bind_ok.mp h
          obtain ⟨hset', hcommon⟩ := have_common hset hneg
          have hann : announced (algo odb) (.data d :: ps) = oid :: announced (algo odb) ps := by
            simp only [announced, List.filterMap_cons, hhex, hoid, Option.bind_some,
              Except.toOption]
          obtain ⟨hdone, hmem⟩ := ih hrest hset' h
          refine ⟨hdone, fun x => ?_⟩
          rw [hmem, hcommon, hann, List.mem_cons]
          tauto
      | flush =>
          rw [statelessRounds] at h
          obtain ⟨⟨neg, out⟩, hneg, h⟩ := except_bind_ok.mp h
          obtain ⟨hc, hs⟩ := flush_common hneg
          obtain ⟨hdone, hmem⟩ := ih hrest (by rw [hc, hs]; exact hset) h
          refine ⟨hdone, fun x => ?_⟩
          rw [hmem]
          simp only [hc]
          rfl
      | delim => exact ih hrest hset h
      | responseEnd => exact ih hrest hset h

/-- A round only adds to what is written. -/
theorem statelessRounds_out : ∀ {ps : List Packet} {r r' : Rounds},
    statelessRounds odb wants ps r = .ok r' → ∃ acks, r'.out = r.out ++ acks := by
  intro ps
  induction ps with
  | nil =>
      intro r r' h
      cases h
      exact ⟨[], (List.append_nil _).symm⟩
  | cons p ps ih =>
      intro r r' h
      unfold statelessRounds at h
      have hstep : ∀ {neg : Negotiator} {saw : Bool} {out : Bytes},
          statelessRounds odb wants ps ⟨neg, r.done, saw, r.out ++ out⟩ = .ok r' →
          ∃ acks, r'.out = r.out ++ acks := by
        intro neg saw out h
        obtain ⟨acks, hacks⟩ := ih h
        exact ⟨out ++ acks, by rw [hacks, List.append_assoc]⟩
      cases p with
      | data d =>
          simp only at h
          split at h
          · obtain ⟨oid, -, h⟩ := except_bind_ok.mp h
            obtain ⟨a, -, h⟩ := except_bind_ok.mp h
            exact hstep h
          · split at h
            · cases h
              exact ⟨[], (List.append_nil _).symm⟩
            · exact ih h
      | flush =>
          obtain ⟨a, -, h⟩ := except_bind_ok.mp h
          exact hstep h
      | delim => exact ih h
      | responseEnd => exact ih h

/-- The rounds of a stateless request with the final acknowledgment. -/
def finishedRounds (odb : D) (wants : List ObjectId) (ps : List Packet) (r : Rounds) :
    Except Error (Rounds × Bytes) := do
  let r ← statelessRounds odb wants ps r
  let ack ← r.neg.done
  .ok (r, ack)

/-- A session has come to the end of these rounds. -/
def AtEnd (end_ : Rounds × Bytes) (neg : Option Negotiator) (written : Bytes) : Prop :=
  neg = some end_.1.neg ∧ written = end_.1.out ++ end_.2

/-- **Within its limits a session answers the rounds as a stateless request does.** -/
theorem haveRounds_endsAs (odb : D) (wants : List ObjectId)
    (hlast : trimTrailingNewline last = bytes "done") (raw : Bytes)
    (rest : List (Packet × Bytes)) : ∀ {items : List (Packet × Bytes)}, (∀ i ∈ items, IsRound i.1) →
    ∀ (packets size : Nat) (r : Rounds), packets + items.length + 1 ≤ maxNegotiationPackets →
    size + (items.map Prod.snd).flatten.length + raw.length ≤ maxNegotiationBytes →
    Exec.EndsAs AtEnd (finishedRounds odb wants (items.map Prod.fst ++ [.data last]) r)
      (haveRounds odb wants (items ++ (.data last, raw) :: rest) packets size r.neg r.out) := by
  intro items
  induction items with
  | nil =>
      intro _ packets size r hpackets hsize
      rw [List.length_nil] at hpackets
      rw [List.map_nil, List.flatten_nil, List.length_nil] at hsize
      have hlimit : ¬ ((decide (packets + 1 > maxNegotiationPackets) ||
          decide (size + raw.length > maxNegotiationBytes)) = true) := by
        simp only [Bool.or_eq_true, decide_eq_true_eq]
        omega
      rw [List.map_nil, List.nil_append, List.nil_append, finishedRounds,
        statelessRounds, haveRounds,
        if_neg hlimit]
      simp only [hlast, done_not_have, if_true]
      show Exec.EndsAs AtEnd (r.neg.done >>= fun ack => .ok ({ r with done := true }, ack)) _
      refine Exec.EndsAs.bind_ofExcept fun ack _ => ?_
      exact Exec.EndsAs.step rfl (.value ⟨rfl, rfl⟩)
  | cons i items ih =>
      intro hround packets size r hpackets hsize
      obtain ⟨p, rawp⟩ := i
      rw [List.length_cons] at hpackets
      simp only [List.map_cons, List.flatten_cons, List.length_append] at hsize
      have hlimit : ¬ ((decide (packets + 1 > maxNegotiationPackets) ||
          decide (size + rawp.length > maxNegotiationBytes)) = true) := by
        simp only [Bool.or_eq_true, decide_eq_true_eq]
        omega
      have ih := fun r => ih (fun j hj => hround j (List.mem_cons_of_mem _ hj))
        (packets + 1) (size + rawp.length) r (by omega) (by omega)
      rw [List.cons_append, List.map_cons, List.cons_append, finishedRounds]
      cases p with
      | data d =>
          obtain ⟨hex, hhex⟩ := hround (.data d, rawp) List.mem_cons_self
          rw [statelessRounds, haveRounds, if_neg hlimit]
          simp only [hhex, bind_assoc]
          refine Exec.EndsAs.bind_ofExcept fun oid _ => ?_
          refine Exec.EndsAs.bind_ofExcept fun a _ => ?_
          obtain ⟨neg, out⟩ := a
          exact Exec.EndsAs.step rfl (ih ⟨neg, r.done, true, r.out ++ out⟩)
      | flush =>
          rw [statelessRounds, haveRounds, if_neg hlimit]
          simp only [bind_assoc]
          refine Exec.EndsAs.bind_ofExcept fun a _ => ?_
          obtain ⟨neg, out⟩ := a
          exact Exec.EndsAs.step rfl (ih ⟨neg, r.done, false, r.out ++ out⟩)
      | delim =>
          rw [statelessRounds, haveRounds, if_neg hlimit]
          · exact ih r
          all_goals simp
      | responseEnd =>
          rw [statelessRounds, haveRounds, if_neg hlimit]
          · exact ih r
          all_goals simp

end Rounds

/-! ## Three frontends, one answer -/

/-- A conversation: a want section through its flush that wants something, and rounds of
haves up to done, all within the limits of a session. -/
structure Conversation (algo : HashAlgo) where
  wantSection : Bytes
  rounds : Bytes
  wantLines : List Packet
  haveLines : List Packet
  last : Bytes
  wantSection_eq : decodeAll wantSection = .ok (wantLines ++ [.flush])
  rounds_eq : decodeAll rounds = .ok (haveLines ++ [.data last])
  no_flush : ∀ p ∈ wantLines, p ≠ .flush
  wanting : ∀ req, FetchRequest.parse algo (wantLines ++ [.flush]) = .ok req → req.wants ≠ []
  lines : ∀ p ∈ haveLines, IsRound p
  done : trimTrailingNewline last = bytes "done"
  wants_fit : wantSection.length ≤ maxNegotiationBytes
  rounds_fit : rounds.length ≤ maxNegotiationBytes
  packets_fit : haveLines.length + 1 ≤ maxNegotiationPackets

namespace Conversation
variable {algo : HashAlgo}

/-- What the client sends. -/
def input (c : Conversation algo) : Bytes := c.wantSection ++ c.rounds

/-- The request of the want section. -/
def request (c : Conversation algo) : Except Error FetchRequest :=
  FetchRequest.parse algo (c.wantLines ++ [.flush])

/-- The haves of all rounds. -/
def haves (c : Conversation algo) : List ObjectId := announced algo c.haveLines

end Conversation

/-- A v2 command carries the fields of a request with these haves, and is done. -/
structure SameFields (algo : HashAlgo) (req : FetchRequest) (haves : List ObjectId)
    (command : V2.Command) (args : V2.FetchArgs) : Prop where
  parsed : V2.FetchArgs.parse algo command = .ok args
  wants : args.wants = req.wants
  haves : args.haves = haves
  shallows : args.shallows = req.shallows
  deepen : Deepen.fromRequest req =
    ⟨args.deepen, args.deepenSince, args.deepenNot, args.deepenRelative⟩
  options : packOptions req = ⟨command.hasArg (str "include-tag"), args.filter, args.thinPack⟩
  wantRefs : args.wantRefs = []
  done : args.done = true

/-- A done v2 command is planned and packed from all the haves it announces. -/
theorem v2FetchPack_same {hasher : Hasher} {refs : RefAccess} {req : FetchRequest}
    {haves : List ObjectId} {command : V2.Command} {args : V2.FetchArgs} {pw : Plan × PackWriter}
    (hf : SameFields (algo odb) req haves command args) (hwants : req.wants ≠ [])
    (h : planPack hasher odb refs.view (wantOf req haves) (packOptions req) = .ok pw) :
    v2FetchPack hasher odb refs command = .ok ([], [], some pw) := by
  have hv2 : v2Wants odb refs command = .ok (args, [], req.wants) := by
    rw [v2Wants, hf.parsed]
    show (if _ then _ else _) = _
    rw [hf.wantRefs, hf.wants]
    simp [wantedRefs, hwants]
  have hack : v2Acknowledge odb args req.wants = .ok ([], true) := by
    rw [v2Acknowledge, if_pos hf.done]
  have hwant : (⟨req.wants, args.haves, args.shallows,
      ⟨args.deepen, args.deepenSince, args.deepenNot, args.deepenRelative⟩⟩ : Want) =
      wantOf req haves := by
    rw [wantOf, hf.haves, hf.shallows, hf.deepen]
  rw [v2FetchPack, hv2]
  show (v2Acknowledge odb args req.wants >>= _) = _
  rw [hack]
  show (planPack _ _ _ _ _ >>= _) = _
  rw [hwant, ← hf.options, h]
  rfl

section Agree
variable {c : Conversation (algo odb)}

/-- A stateless request is split where the session's want section ends. -/
theorem statelessRequest_input :
    statelessRequest odb c.input =
      c.request.map fun req => (req, c.haveLines ++ [Packet.data c.last]) := by
  obtain ⟨_, _, _, happend⟩ := packetsOf_append c.wantSection_eq
  obtain ⟨hall, -⟩ := happend c.rounds
  have hidx : (c.wantLines ++ [Packet.flush] ++ (c.haveLines ++ [Packet.data c.last])).findIdx
      (· == Packet.flush) = c.wantLines.length := by
    have hnone : c.wantLines.findIdx (· == Packet.flush) = c.wantLines.length :=
      List.findIdx_eq_length_of_false fun p hp => by simp [c.no_flush p hp]
    rw [List.append_assoc, List.findIdx_append, hnone, if_neg (Nat.lt_irrefl _)]
    simp [List.findIdx_cons]
  have hpackets : decodeAll c.input =
      .ok (c.wantLines ++ [.flush] ++ (c.haveLines ++ [.data c.last])) := by
    rw [Conversation.input, hall, c.rounds_eq]
    rfl
  have hlen : (c.wantLines ++ [Packet.flush]).length = c.wantLines.length + 1 := by simp
  rw [statelessRequest, hpackets]
  show (FetchRequest.parse _ _ >>= _) = _
  rw [hidx, List.take_left' hlen, List.drop_left' hlen]
  cases h : c.request with
  | error e =>
      rw [show FetchRequest.parse (algo odb) (c.wantLines ++ [.flush]) = .error e from h]
      rfl
  | ok req =>
      rw [show FetchRequest.parse (algo odb) (c.wantLines ++ [.flush]) = .ok req from h]
      have hwants := c.wanting req h
      show (if _ then _ else _) = _
      rw [if_neg (by simpa using hwants)]
      rfl

/-- Items whose packets end in `p` end in an item of it. -/
theorem exists_last_item {items : List (Packet × Bytes)} {ps : List Packet} {p : Packet}
    (h : items.map Prod.fst = ps ++ [p]) :
    ∃ init raw, items = init ++ [(p, raw)] ∧ init.map Prod.fst = ps := by
  obtain ⟨init, tail, rfl, hinit, htail⟩ := List.map_eq_append_iff.mp h
  obtain ⟨⟨q, raw⟩, rfl, rfl⟩ := List.map_eq_singleton_iff.mp htail
  exact ⟨init, raw, rfl, hinit⟩

/-- A session reads the want section of a conversation, and then has its rounds before it. -/
theorem readWants_input : ∃ items raw, items.map Prod.fst = c.haveLines ∧
    (items.map Prod.snd).flatten.length + raw.length = c.rounds.length ∧
    readWants (packetsOf (c.input.length + 1) c.input) [] =
      .ok (some (c.wantSection, items ++ [(.data c.last, raw)])) := by
  obtain ⟨wants, hwfst, hwsnd, happend⟩ := packetsOf_append c.wantSection_eq
  obtain ⟨rounds, hrfst, hrsnd, hrest⟩ := packetsOf_append c.rounds_eq
  have hpackets : packetsOf (c.input.length + 1) c.input = wants ++ rounds := by
    obtain ⟨-, hw⟩ := happend c.rounds
    obtain ⟨-, hr⟩ := hrest []
    rw [List.append_nil] at hr
    rw [Conversation.input, hw, hr]
    exact congrArg _ (List.append_nil rounds)
  obtain ⟨wants, flushRaw, rfl, hwants⟩ := exists_last_item hwfst
  obtain ⟨items, raw, rfl, hitems⟩ := exists_last_item hrfst
  simp only [List.map_append, List.flatten_append, List.map_cons, List.map_nil, List.flatten_cons,
    List.flatten_nil, List.append_nil] at hwsnd hrsnd
  refine ⟨items, raw, hitems, by rw [← hrsnd, List.length_append], ?_⟩
  have hflush : ∀ i ∈ wants, i.1 ≠ .flush := fun i hi =>
    c.no_flush i.1 (hwants ▸ List.mem_map.mpr ⟨i, hi, rfl⟩)
  have hfit : ([] : Bytes).length + (wants.map Prod.snd).flatten.length + flushRaw.length ≤
      maxNegotiationBytes := by
    have hsize := c.wants_fit
    rw [← hwsnd, List.length_append] at hsize
    rw [List.length_nil]
    omega
  rw [hpackets, List.append_assoc, List.singleton_append, readWants_section hflush hfit,
    List.nil_append, hwsnd]

section Session
variable {hasher : Hasher}

theorem isRound_of_items {items : List (Packet × Bytes)} (h : items.map Prod.fst = c.haveLines) :
    ∀ i ∈ items, IsRound i.1 := fun i hi => c.lines i.1 (h ▸ List.mem_map.mpr ⟨i, hi, rfl⟩)

/-- A session has the request and the pack of a stateless answer, and has written what
comes before the pack. -/
def AtPack (answer : FetchRequest × Bytes × Option PackWriter)
    (session : Option (FetchRequest × PackWriter)) (written : Bytes) : Prop :=
  ∃ w, answer.2.2 = some w ∧ session = some (answer.1, w) ∧ written = answer.2.1

/-- The start of the rounds of a request. -/
def Rounds.start (req : FetchRequest) (boundary : Bytes) : Rounds :=
  ⟨.new (.fromCaps req.capabilities), false, false, boundary⟩

/-- A stateless request that is a conversation, up to its pack. -/
theorem statelessPack_input : statelessPack hasher odb refs c.input = (do
    let req ← c.request
    let boundary ← shallowSection odb refs req
    let (r, ack) ← finishedRounds odb req.wants (c.haveLines ++ [.data c.last])
      (.start req boundary)
    let (_, w) ← planPack hasher odb refs (wantOf req r.neg.common) (packOptions req)
    .ok (req, r.out ++ ack, some w)) := by
  rw [statelessPack, statelessRequest_input]
  cases hreq : c.request with
  | error e => rfl
  | ok req =>
      show (shallowSection odb refs req >>= _) = (shallowSection odb refs req >>= _)
      cases hboundary : shallowSection odb refs req with
      | error e => rfl
      | ok boundary =>
          show (statelessRounds odb req.wants (c.haveLines ++ [.data c.last])
            (.start req boundary) >>= _)
            = (finishedRounds odb req.wants (c.haveLines ++ [.data c.last])
              (.start req boundary) >>= _)
          rw [finishedRounds]
          cases hr : statelessRounds odb req.wants (c.haveLines ++ [.data c.last])
              (.start req boundary) with
          | error e => rfl
          | ok r =>
              obtain ⟨hdone, -⟩ := statelessRounds_done c.done c.lines
                (fun x hx => absurd hx (BTreeSet.not_mem_empty x)) hr
              show (if _ then _ else _) = ((r.neg.done >>= _) >>= _)
              rw [if_neg (by simp [hdone])]
              cases r.neg.done with
              | error e => rfl
              | ok ack => rfl

/-- Up to the pack a session does what a stateless request does. -/
theorem sessionPack_endsAs : Exec.EndsAs AtPack (statelessPack hasher odb refs c.input)
    (sessionPack hasher odb refs c.input []) := by
  obtain ⟨items, raw, hitems, hsize, hread⟩ := readWants_input (c := c)
  have hlen : items.length = c.haveLines.length := by rw [← hitems, List.length_map]
  have hpackets := c.packets_fit
  have hbytes := c.rounds_fit
  rw [statelessPack_input, sessionPack]
  refine Exec.EndsAs.step (congrArg (fun x => some (x, [])) hread) ?_
  refine Exec.EndsAs.step (congrArg (fun x => some (x, [])) c.wantSection_eq) ?_
  refine Exec.EndsAs.bind_ofExcept fun req hreq => ?_
  have hwants : ¬ req.wants.isEmpty = true := by
    have hne := c.wanting req hreq
    simpa using hne
  rw [if_neg hwants]
  refine Exec.EndsAs.bind_ofExcept fun boundary _ => ?_
  have hrounds := haveRounds_endsAs odb req.wants c.done raw [] (isRound_of_items hitems) 0 0
    (.start req boundary) (by omega) (by omega)
  rw [hitems] at hrounds
  refine Exec.EndsAs.step rfl ?_
  refine Exec.EndsAs.bind hrounds ?_
  rintro ⟨r, ack⟩ neg written - ⟨rfl, rfl⟩
  refine Exec.EndsAs.bind_ofExcept fun pw _ => ?_
  exact .value ⟨pw.2, rfl, rfl, rfl⟩

/-- **A session ends as a stateless request does**: with the same bytes written, or with
the same error. -/
theorem serveSession_endsAs (finish : PackWriter → Except Error Bytes) :
    Exec.EndsAs (fun out _ written => written = out) (serveStateless finish hasher odb refs c.input)
      (serveSession finish hasher odb refs c.input []) := by
  rw [serveStateless, serveSession]
  refine Exec.EndsAs.bind sessionPack_endsAs ?_
  rintro ⟨req, out, w⟩ session written - ⟨w, hw, rfl, rfl⟩
  obtain rfl : _ = some w := hw
  refine Exec.EndsAs.bind_ofExcept fun pack _ => ?_
  refine Exec.EndsAs.bind_ofExcept fun body _ => ?_
  exact .value rfl

end Session

/-- How an answer to a request with these announced haves is made up: what it says of the
boundary, the acknowledgments, and the pack of the plan for the haves that are common. -/
structure Answers (finish : PackWriter → Except Error Bytes) (hasher : Hasher) (odb : D)
    (refs : RefView) (req : FetchRequest) (haves : List ObjectId) (out : Bytes) (p : Plan)
    (pack : Bytes) : Prop where
  packed : ∃ common w, (∀ x, x ∈ common ↔ x ∈ haves ∧ contains odb x = true) ∧
    planPack hasher odb refs (wantOf req common) (packOptions req) = .ok (p, w) ∧
    finish w = .ok pack
  framed : ∃ boundary acks body, out = boundary ++ acks ++ body ∧
    encodePackStream req.capabilities pack = .ok body ∧
    if (Deepen.fromRequest req).isActive then encodeShallowSection p = .ok boundary
    else boundary = [] ∧ p.shallow = [] ∧ p.unshallow = []

/-- What is written between the boundary and the end of the rounds is appended. -/
theorem finishedRounds_out {wants : List ObjectId} {ps : List Packet} {r : Rounds}
    {end_ : Rounds × Bytes} (h : finishedRounds odb wants ps r = .ok end_) :
    ∃ acks, end_.1.out ++ end_.2 = r.out ++ acks := by
  obtain ⟨r', hr, h⟩ := except_bind_ok.mp h
  obtain ⟨ack, -, h⟩ := except_bind_ok.mp h
  cases h
  obtain ⟨acks, hacks⟩ := statelessRounds_out hr
  exact ⟨acks ++ ack, by rw [hacks, List.append_assoc]⟩

/-- The boundary told first is that of the plan the pack is built from. -/
theorem shallowSection_planned {hasher : Hasher} {req : FetchRequest} {haves : List ObjectId}
    {opts : PackOptions} {boundary : Bytes} {p : Plan} {w : PackWriter}
    (hb : shallowSection odb refs req = .ok boundary)
    (h : planPack hasher odb refs (wantOf req haves) opts = .ok (p, w)) :
    if (Deepen.fromRequest req).isActive then encodeShallowSection p = .ok boundary
    else boundary = [] ∧ p.shallow = [] ∧ p.unshallow = [] := by
  obtain ⟨p₀, hp₀, h⟩ := except_bind_ok.mp h
  obtain ⟨p₁, hp₁, h⟩ := except_bind_ok.mp h
  obtain ⟨w', -, h⟩ := except_bind_ok.mp h
  cases h
  obtain ⟨hshallow, hunshallow⟩ := withTags_boundary hp₁
  rw [shallowSection] at hb
  split
  · rename_i hactive
    rw [if_pos hactive] at hb
    obtain ⟨p', hp', hb⟩ := except_bind_ok.mp hb
    obtain ⟨hs, hu⟩ := plan_boundary_congr haves hp' hp₀
    rw [encodeShallowSection, hshallow, hunshallow, hs, hu]
    exact hb
  · rename_i hactive
    rw [if_neg hactive] at hb
    cases hb
    have hplain : (wantOf req haves).deepen.isActive = false := Bool.eq_false_iff.mpr hactive
    obtain ⟨-, -, -, hs, hu⟩ := plan_plain hp₀ hplain
    exact ⟨rfl, hshallow.trans hs, hunshallow.trans hu⟩

/-- **The three frontends agree.**  A session ends as the stateless frontend does on the same
bytes.  When a pack is sent, the boundary told before the negotiation is that of the plan
of the pack; and a v2 command of the same fields sends that boundary and that pack, if the
repository contains every wanted id that is announced as a have. -/
theorem frontends_agree (finish : PackWriter → Except Error Bytes) (hasher : Hasher)
    (refs : RefAccess) (c : Conversation (algo odb)) :
    Exec.EndsAs (fun out _ written => written = out)
      (serveStateless finish hasher odb refs.view c.input)
      (serveSession finish hasher odb refs.view c.input []) ∧
    ∀ out, serveStateless finish hasher odb refs.view c.input = .ok out →
      ∃ req p pack, c.request = .ok req ∧
        Answers finish hasher odb refs.view req c.haves out p pack ∧
        ∀ command args, SameFields (algo odb) req c.haves command args →
          (∀ x ∈ req.wants, x ∈ c.haves → contains odb x = true) →
          v2Fetch finish hasher odb refs command =
            V2.encodeFetchSections none p.shallow p.unshallow [] [] pack := by
  refine ⟨serveSession_endsAs finish, fun out h => ?_⟩
  obtain ⟨⟨req, before, w?⟩, hpack, h⟩ := except_bind_ok.mp h
  rw [statelessPack_input] at hpack
  obtain ⟨req, hreq, hpack⟩ := except_bind_ok.mp hpack
  obtain ⟨boundary, hboundary, hpack⟩ := except_bind_ok.mp hpack
  obtain ⟨⟨r, ack⟩, hrounds, hpack⟩ := except_bind_ok.mp hpack
  obtain ⟨⟨p, w⟩, hplan, hpack⟩ := except_bind_ok.mp hpack
  cases hpack
  obtain ⟨pack, hfinish, h⟩ := except_bind_ok.mp h
  obtain ⟨body, hbody, h⟩ := except_bind_ok.mp h
  cases h
  obtain ⟨acks, hacks⟩ := finishedRounds_out hrounds
  have hcommon : ∀ x, x ∈ r.neg.common ↔ x ∈ c.haves ∧ contains odb x = true := by
    obtain ⟨r', hr, hrounds⟩ := except_bind_ok.mp hrounds
    obtain ⟨ack', -, hrounds⟩ := except_bind_ok.mp hrounds
    cases hrounds
    obtain ⟨-, hmem⟩ := statelessRounds_done c.done c.lines
      (fun x hx => absurd hx (BTreeSet.not_mem_empty x)) hr
    intro x
    rw [hmem]
    exact or_iff_right List.not_mem_nil
  refine ⟨req, p, pack, hreq, ⟨⟨r.neg.common, w, hcommon, hplan, hfinish⟩, boundary, acks, body, ?_,
    hbody, shallowSection_planned hboundary hplan⟩, fun command args hf hknown => ?_⟩
  · exact congrArg (· ++ body) hacks
  -- the haves the repository lacks change nothing of the plan
  have hsame : ∀ x, x ∈ c.haves.filter (contains odb) ↔
      x ∈ (wantOf req r.neg.common).haves.filter (contains odb) := by
    intro x
    rw [List.mem_filter, List.mem_filter]
    show _ ↔ x ∈ r.neg.common ∧ _
    rw [hcommon]
    tauto
  have hasked : (wantOf req c.haves).asked = (wantOf req r.neg.common).asked := by
    refine List.filter_congr fun x hx => ?_
    show (!c.haves.contains x) = !r.neg.common.contains x
    rw [Bool.not_inj_iff, Bool.eq_iff_iff, List.contains_iff_mem, List.contains_iff_mem, hcommon]
    exact ⟨fun hin => ⟨hin, hknown x hx hin⟩, fun hin => hin.1⟩
  have hv2 := v2FetchPack_same hf (c.wanting req hreq) (planPack_congr hsame hasked hplan)
  rw [v2Fetch, hv2]
  show (finish w >>= _) = _
  rw [hfinish]
  show (V2.encodeFetchSections none p.shallow p.unshallow [] [] pack >>= _) = _
  cases V2.encodeFetchSections none p.shallow p.unshallow [] [] pack with
  | error e => rfl
  | ok sections => rfl

end Agree

/-! ## A want that is announced -/

namespace FetchSample

/-- The lines of a request for `newest`, cut to one commit. -/
def wantNewest : List Packet :=
  [.data (bytes "want 0fa0920d5d47d3d22899311850075e68bb24dbad\n"), .data (bytes "deepen 1\n")]

/-- The line that announces an id. -/
def haveLine (id : ObjectId) : Bytes := bytes "have " ++ toUtf8 id.toHex ++ bytes "\n"

theorem request_wantNewest : (FetchRequest.parse .sha1 (wantNewest ++ [.flush])).map (·.wants) =
    .ok [newest] := by decide

/-- A request for `newest` that announces one id, in a round of its own. -/
def askNewest (known : ObjectId) (rounds : Bytes)
    (hrounds : decodeAll rounds = .ok [.data (haveLine known), .flush, .data (bytes "done\n")])
    (hline : IsRound (.data (haveLine known))) (hfit : rounds.length ≤ maxNegotiationBytes) :
    Conversation .sha1 where
  wantSection := bytes "0032want 0fa0920d5d47d3d22899311850075e68bb24dbad\n000ddeepen 1\n0000"
  rounds := rounds
  wantLines := wantNewest
  haveLines := [.data (haveLine known), .flush]
  last := bytes "done\n"
  wantSection_eq := by decide
  rounds_eq := hrounds
  no_flush := by decide
  wanting := by
    intro req h hnone
    have hwants := request_wantNewest
    rw [h] at hwants
    simp [Except.map, hnone] at hwants
  lines := by
    intro p hp
    rcases List.mem_cons.mp hp with rfl | hp
    · exact hline
    · obtain rfl := List.mem_singleton.mp hp
      trivial
  done := by decide
  wants_fit := by decide
  rounds_fit := hfit
  packets_fit := by simp [maxNegotiationPackets]

/-- The client has the parent of what it asks for. -/
def askFromOld : Conversation (algo chainStore) :=
  askNewest old (bytes "0032have 80b5dbf06ccc331bce8ccb2f88f38d2f6564feb7\n00000009done\n")
    (by decide) ⟨toUtf8 old.toHex, by decide⟩ (by decide)

/-- The client says it has what it asks for, of which the server knows nothing. -/
def askAnnounced : Conversation (algo store) :=
  askNewest newest (bytes "0032have 0fa0920d5d47d3d22899311850075e68bb24dbad\n00000009done\n")
    (by decide) ⟨toUtf8 newest.toHex, by decide⟩ (by decide)

/-- The v2 command of a request for `newest` that announces an id. -/
def fetchNewest (known : ObjectId) : V2.Command :=
  ⟨str "fetch", [], [str "want " ++ newest.toHex, str "have " ++ known.toHex,
    str "deepen 1", str "done"]⟩

/-- Its arguments. -/
def newestArgs (known : ObjectId) : V2.FetchArgs :=
  ⟨[newest], [known], true, false, false, some 1, [], none, [], none, [], false⟩

/-- The packs are built with stored blocks. -/
def finishStored (w : PackWriter) : Except Error Bytes := (w.finish .stored).map (·.pack)

/-- What `askNewest` parses to. -/
def newestRequest : FetchRequest :=
  { FetchRequest.default with wants := [newest], deepen := some 1 }

theorem request_askNewest : FetchRequest.parse .sha1 (wantNewest ++ [.flush]) =
    .ok newestRequest := by
  decide

theorem sameFields_newest (known : ObjectId)
    (h : V2.FetchArgs.parse .sha1 (fetchNewest known) = .ok (newestArgs known)) :
    SameFields .sha1 newestRequest [known] (fetchNewest known) (newestArgs known) where
  parsed := h
  wants := rfl
  haves := rfl
  shallows := rfl
  deepen := rfl
  options := by
    have htag : (fetchNewest known).hasArg (str "include-tag") = false := by
      simp [V2.Command.hasArg, fetchNewest, str]
    rw [htag]
    rfl
  wantRefs := rfl
  done := rfl

/-- A client that has `old` is sent `newest` alike by all three. -/
theorem frontends_agree_fromOld : ∃ out, ∃ p : Plan, ∃ pack,
    serveStateless finishStored .sha chainStore mainRefs.view askFromOld.input = .ok out ∧
    serveSession finishStored .sha chainStore mainRefs.view askFromOld.input [] =
      some (.ok (), out) ∧
    v2Fetch finishStored .sha chainStore mainRefs (fetchNewest old) =
      V2.encodeFetchSections none p.shallow p.unshallow [] [] pack := by
  obtain ⟨out, hout⟩ := exists_ok (x := serveStateless finishStored .sha chainStore mainRefs.view
    askFromOld.input) (by decide +kernel)
  obtain ⟨_, written, hrun, hwritten⟩ :=
    (frontends_agree finishStored .sha mainRefs askFromOld).1.ok out hout
  rw [hwritten] at hrun
  obtain ⟨req, p, pack, hreq, -, hv2⟩ :=
    (frontends_agree finishStored .sha mainRefs askFromOld).2 out hout
  obtain rfl : newestRequest = req := Except.ok.inj (request_askNewest.symm.trans hreq)
  have hhaves : askFromOld.haves = [old] := by decide
  rw [hhaves] at hv2
  refine ⟨out, p, pack, hout, hrun, hv2 _ _ (sameFields_newest old (by decide)) ?_⟩
  intro x hx _
  obtain rfl := List.mem_singleton.mp hx
  decide

/-- A want the server lacks is refused, except by the v2 frontend when it is announced. -/
theorem announced_want_differs :
    askAnnounced.request = .ok newestRequest ∧
    SameFields .sha1 newestRequest askAnnounced.haves (fetchNewest newest) (newestArgs newest) ∧
    serveStateless finishStored .sha store mainRefs.view askAnnounced.input =
      .error (objectNotFound newest) ∧
    (v2Fetch finishStored .sha store mainRefs (fetchNewest newest)).toBool = true := by
  have hhaves : askAnnounced.haves = [newest] := by decide
  refine ⟨request_askNewest, ?_, by decide +kernel, by decide +kernel⟩
  rw [hhaves]
  exact sameFields_newest newest (by decide)

end FetchSample

end Puregit.Server
