import Puregit.Client.Delivery
import Puregit.Client.Fetch
import Puregit.Client.Negotiated
import Puregit.Odb.Growth
import Puregit.Server.Frontends

/-! # What fetches leave in a store

A client fetches from remotes, one after the other.  Each remote has some objects and refs, and the
client reads of it what is advertised, asks for what it lacks, and stores the pack it gets.

`retrieved_whole` says that this goes well however many fetches there are, with or without a
negotiation, and from whatever remotes: the client has all that each of its objects leads to, at any
time, and with that all that was advertised to it.  The pack of a remote holds what the client did
not say it had, and no more: what the client relies on is that what it offered it really had.

A fetch that breaks off while it stores its objects may leave some without what they lead to, and
the next one does not ask for those.  So a step counts here that succeeds, or changes nothing. -/
namespace Puregit.Client
open ObjectDatabase ObjectGraph Relation Server PktLine

section
variable {D : Type} [ObjectDatabase D] {odb : D} {hasher : Hasher}

/-! ## What a server packs -/

/-- A request for all that its wants lead to. -/
structure PlainWant (req : Want) (opts : PackOptions) : Prop where
  clientShallow : req.clientShallow = []
  deepen : req.deepen.isActive = false
  filter : opts.filter = none
  includeTag : opts.includeTag = false

/-- Without a filter all objects are queued. -/
theorem addObjects_unfiltered (wanted : BTreeSet ObjectId) (ids : List ObjectId) (w : PackWriter) :
    addObjects odb ObjectFilter.none wanted ids w = queueObjects odb ids w := by
  induction ids generalizing w with
  | nil => rfl
  | cons id ids ih =>
    rw [addObjects, queueObjects]
    refine bind_congr fun r => ?_
    obtain ⟨ty, payload⟩ := r
    have hkeeps : ObjectFilter.none.keeps ty payload.length = true := by
      cases ty with
      | blob => rfl
      | tree => rfl
      | commit => rfl
      | tag => rfl
    simp only [hkeeps, Bool.not_true, Bool.and_false, Bool.false_eq_true, if_false, ih]

/-- A plan for such a request is what the wants lead to and the common objects do not, and the
wants. -/
theorem plan_objects {view : RefView} {req : Want} {p : Plan} {opts : PackOptions}
    (hplain : PlainWant req opts) (h : Server.plan odb view req = .ok p) : ∃ objects,
      objectsToSend (objectChildren odb) req.wants (req.haves.filter (contains odb)) =
      .ok objects ∧ p.objects = objects.extend req.asked := by
  rw [Server.plan, hplain.clientShallow] at h
  obtain ⟨clientHas, hhas, h⟩ := except_bind_ok.mp h
  simp only [hplain.deepen, Bool.not_false, if_true] at h
  obtain ⟨objects, hobjects, h⟩ := except_bind_ok.mp h
  cases h
  exact ⟨objects, except_bind_ok.mpr ⟨clientHas, hhas, hobjects⟩, rfl⟩

/-- **The pack of such a request carries each want to a client that has the common objects**, and
holds what is reached from the wants. -/
theorem planPack_carries (hs : Sound hasher odb) {view : RefView} {req : Want}
    {opts : PackOptions} {p : Plan} {w : PackWriter} (hplain : PlainWant req opts)
    (hwants : ∀ want ∈ req.wants, Whole odb want)
    (h : planPack hasher odb view req opts = .ok (p, w)) :
    (∀ want ∈ req.wants, Carries hasher odb want (req.haves.filter (contains odb)) w) ∧
      ∀ e ∈ w.entries, ∃ want ∈ req.wants, ReflTransGen (Refers (graph odb)) want e.id := by
  obtain ⟨p₀, hp₀, h⟩ := except_bind_ok.mp h
  obtain ⟨p₁, hp₁, h⟩ := except_bind_ok.mp h
  obtain ⟨w₁, hw₁, h⟩ := except_bind_ok.mp h
  cases h
  rw [withTags, hplain.includeTag] at hp₁
  cases hp₁
  obtain ⟨objects, hobjects, hplan⟩ := plan_objects hplain hp₀
  obtain ⟨queued, hqueued, h⟩ := except_bind_ok.mp hw₁
  rw [hplain.filter] at hqueued
  change addObjects odb ObjectFilter.none _ _ _ = _ at hqueued
  rw [addObjects_unfiltered] at hqueued
  obtain ⟨hv, hhasher, halgo, hnone, hentries, -, hall⟩ :=
    queueObjects_spec hs hqueued (PackWriter.valid_new hasher (algo odb)) rfl rfl
  have hread : ∀ e ∈ queued.entries, read odb e.id = .ok (e.ty, e.payload) := fun e he =>
    (hentries e he).resolve_left List.not_mem_nil
  -- the bases of a thin pack change nothing of what is in it
  have hw : w.Valid ∧ w.hasher = hasher ∧ w.algo = algo odb ∧ w.entries = queued.entries ∧
      ∀ b ∈ w.externalBases, read odb b.id = .ok (b.ty, b.payload) := by
    have hbases : ∀ b ∈ queued.externalBases, read odb b.id = .ok (b.ty, b.payload) := by
      intro b hb
      rw [hnone] at hb
      exact absurd hb List.not_mem_nil
    cases h
    by_cases hthin : opts.thin = true
    · rw [if_pos hthin]
      obtain ⟨hv', hhasher', halgo', hsame, hall'⟩ :=
        addBases_spec hs (p.clientHas.toList.take thinPackBaseCap) hv hhasher halgo
      exact ⟨hv', hhasher', halgo', hsame, fun b hb => (hall' b hb).elim (hbases b) id⟩
    · rw [if_neg hthin]
      exact ⟨hv, hhasher, halgo, rfl, hbases⟩
  obtain ⟨hv', hhasher', halgo', hsame, hbases⟩ := hw
  have hreached : ∀ {x}, x ∈ p.objects → ∃ want ∈ req.wants,
      ReflTransGen (Refers (graph odb)) want x := by
    intro x hx
    rw [hplan] at hx
    rcases BTreeSet.mem_extend.mp hx with hx | hx
    · exact ⟨x, List.mem_of_mem_filter hx, .refl⟩
    · exact ((mem_objectsToSend hobjects).mp hx).1
  refine ⟨fun want hwant => ⟨hv', hhasher', halgo', ?_, hbases, fun x hx => ?_⟩, fun e he => ?_⟩
  · rw [hsame]
    exact hread
  · by_cases hhave : ∃ v ∈ req.haves.filter (contains odb), ReflTransGen (Refers (graph odb)) v x
    · exact Or.inr hhave
    · left
      have hmem : x ∈ p.objects := by
        rw [hplan]
        exact BTreeSet.mem_extend.mpr
          (Or.inr ((mem_objectsToSend hobjects).mpr ⟨⟨want, hwant, hx⟩, hhave⟩))
      rw [hsame]
      exact ⟨hall x (BTreeSet.mem_toList.mpr hmem), hwants want hwant x hx⟩
  · rw [hsame] at he
    have hadded : addObjects odb ObjectFilter.none BTreeSet.empty p.objects.toList
      (PackWriter.new hasher (algo odb)) =
        .ok queued := (addObjects_unfiltered _ _ _).trans hqueued
    obtain ⟨id, hid, hobject⟩ := (addObjects_read hadded he).resolve_left List.not_mem_nil
    have heq : e.id = id := by
      rw [← hs.id _ _ _ (hread e he), hs.id _ _ _ hobject]
    rw [heq]
    exact hreached (BTreeSet.mem_toList.mp hid)

/-! ## What comes before the pack -/

/-- Packets that are passed over on the way to a pack. -/
def Passed (out : Bytes) : Prop := ∃ ps, Framed ps out ∧ ∀ p ∈ ps, Skipped p

theorem passed_nil : Passed [] := ⟨[], .nil, fun _ hp => absurd hp List.not_mem_nil⟩

theorem Passed.append {out out' : Bytes} (h : Passed out) (h' : Passed out') :
    Passed (out ++ out') := by
  obtain ⟨ps, hps, hskip⟩ := h
  obtain ⟨qs, hqs, hskip'⟩ := h'
  refine ⟨ps ++ qs, hps.append hqs, fun q hq => ?_⟩
  rcases List.mem_append.mp hq with hq | hq
  · exact hskip q hq
  · exact hskip' q hq

theorem passed_ack {a : Ack} {out : Bytes} (h : encodeLine a.line = .ok out) : Passed out := by
  refine ⟨[linePacket a.line], .single h, fun p hp => ?_⟩
  rw [List.mem_singleton.mp hp]
  exact skipped_ack a

section
variable {wants : List ObjectId} {n n' : Negotiator} {oid : ObjectId} {out : Bytes}

theorem passed_have (h : n.have_ odb oid = .ok (n', out)) : Passed out := by
  rw [Negotiator.have_] at h
  by_cases habsent : (!contains odb oid) = true
  · rw [if_pos habsent] at h
    cases h
    exact passed_nil
  rw [if_neg habsent] at h
  have hline : ∀ {m : Negotiator} {line : Str}, m.ackLine oid = some line →
      ∃ a : Ack, a.line = line := by
    intro m line hm
    rw [Negotiator.ackLine] at hm
    cases hmode : m.mode with
    | detailed =>
      rw [hmode] at hm
      exact ⟨.common oid, Option.some.inj hm⟩
    | multi =>
      rw [hmode] at hm
      exact ⟨.continue_ oid, Option.some.inj hm⟩
    | single =>
      rw [hmode] at hm
      simp only at hm
      split at hm
      · exact ⟨.final oid, Option.some.inj hm⟩
      · cases hm
  simp only at h
  split at h
  · cases h
    exact passed_nil
  · rename_i line hm
    obtain ⟨a, rfl⟩ := hline hm
    obtain ⟨bytes, hbytes, heq⟩ := except_map_ok.mp h
    cases heq
    exact passed_ack hbytes

theorem passed_flush (h : n.flush odb wants = .ok (n', out)) : Passed out := by
  obtain ⟨ready, hready, h⟩ := except_bind_ok.mp h
  have hpassed : Passed ready := by
    rcases readyLine_spells hready with rfl | ⟨last, -, hline, -⟩
    · exact passed_nil
    · exact passed_ack hline
  simp only at h
  split at h
  · obtain ⟨nak, hnak, h⟩ := except_bind_ok.mp h
    cases h
    exact hpassed.append (passed_ack (a := .nak) hnak)
  · cases h
    rw [List.append_nil]
    exact hpassed

theorem passed_done (h : n.done = .ok out) : Passed out := by
  rw [Negotiator.done] at h
  split at h
  · rename_i last _
    split at h
    · exact passed_ack (a := .final last) h
    · cases h
      exact passed_nil
  · exact passed_ack (a := .nak) h

/-- What is answered to the haves is passed over. -/
theorem statelessRounds_passed {ps : List Packet} {r r' : Rounds}
    (h : statelessRounds odb wants ps r = .ok r') (hout : Passed r.out) : Passed r'.out := by
  induction ps generalizing r with
  | nil =>
    cases h
    exact hout
  | cons p ps ih =>
    unfold statelessRounds at h
    cases p with
    | data d =>
      simp only at h
      split at h
      · obtain ⟨oid, -, h⟩ := except_bind_ok.mp h
        obtain ⟨⟨neg, more⟩, hneg, h⟩ := except_bind_ok.mp h
        exact ih h (hout.append (passed_have hneg))
      · split at h
        · cases h
          exact hout
        · exact ih h hout
    | flush =>
      obtain ⟨⟨neg, more⟩, hneg, h⟩ := except_bind_ok.mp h
      exact ih h (hout.append (passed_flush hneg))
    | delim => exact ih h hout
    | responseEnd => exact ih h hout

end

/-! ## A request is answered -/

/-- The packets of what a client offers, and of the end of its request. -/
def havePackets (haves : List ObjectId) : List Packet :=
  ((haves.map fun id => str "have " ++ id.toHex).map (· ++ ['\n'])).map linePacket

/-- The fields of a request that its server packs by. -/
def sentFields (req : FetchRequest) : FetchRequest := { req.received false with haves := [] }

/-- **A server reads a request as it was meant**, with the haves behind it. -/
theorem statelessRequest_encode {req : FetchRequest} {request : Bytes}
    (hread : req.Readable (algo odb)) (hwants : req.wants ≠ []) (h : req.encode = .ok request) :
    statelessRequest odb request = .ok (sentFields req,
      havePackets req.haves ++ [.data (bytes "done\n")]) := by
  obtain ⟨want, wants, hcons⟩ := List.exists_cons_of_ne_nil hwants
  obtain ⟨body, hbody, h⟩ := except_bind_ok.mp h
  obtain ⟨done, hdone, h⟩ := except_bind_ok.mp h
  cases h
  rw [FetchRequest.encodePrefix, if_neg (by simpa using hwants)] at hbody
  obtain ⟨first, hfirst, hbody⟩ := except_bind_ok.mp hbody
  obtain ⟨haves, hhaves, hbody⟩ := except_bind_ok.mp hbody
  cases hbody
  have hflush : PktLine.encode .flush = .ok flushPkt := rfl
  have hend : decodeAll done = .ok [.data (bytes "done\n")] :=
    decodeAll_one (p := .data (bytes "done\n")) hdone
  -- the section of the wants ends with the first flush
  let lines : List Packet := ((req.wantTexts want wants).map (· ++ ['\n'])).map linePacket
  have hpackets : decodeAll (first ++ flushPkt ++ haves ++ done) =
      .ok ((lines ++ [Packet.flush]) ++
        (havePackets req.haves ++ [Packet.data (bytes "done\n")])) := by
    rw [List.append_assoc, List.append_assoc, decodeAll_encodeLines hfirst, decodeAll_encode hflush,
      decodeAll_encodeLines hhaves, hend, FetchRequest.wantLines_append hcons,
        FetchRequest.idLines_eq]
    show Except.ok _ = Except.ok _
    simp only [lines, havePackets, List.append_assoc, List.singleton_append]
  have hidx : ((lines ++ [Packet.flush]) ++
    (havePackets req.haves ++ [Packet.data (bytes "done\n")])).findIdx (· == Packet.flush) =
      lines.length := by
    have hnone : lines.findIdx (· == Packet.flush) = lines.length := by
      refine List.findIdx_eq_length_of_false fun p hp => ?_
      obtain ⟨l, -, rfl⟩ := List.mem_map.mp hp
      rfl
    rw [List.append_assoc, List.findIdx_append, hnone, if_neg (Nat.lt_irrefl _)]
    simp [List.findIdx_cons]
  have hlen : (lines ++ [Packet.flush]).length = lines.length + 1 := by
    rw [List.length_append, List.length_singleton]
  have hparse : FetchRequest.parse (algo odb) (lines ++ [.flush]) = .ok (sentFields req) := by
    rw [FetchRequest.parse, foldLines_append, FetchRequest.foldlM_wantTexts hread hcons,
      except_ok_bind]
    rfl
  have hsome : ¬ (sentFields req).wants.isEmpty = true := by
    show ¬ req.wants.isEmpty = true
    simpa using hwants
  rw [statelessRequest, hpackets, except_ok_bind]
  show (FetchRequest.parse _ _ >>= _) = _
  rw [hidx, List.take_left' hlen, List.drop_left' hlen, hparse, except_ok_bind]
  exact if_neg hsome

theorem stripPrefix?_haveText (id : ObjectId) : stripPrefix? (bytes "have ")
    (trimTrailingNewline (toUtf8 (str "have " ++ id.toHex ++ ['\n']))) =
      some (toUtf8 id.toHex) := by
  rw [trimTrailingNewline_line, toUtf8_append]
  exact stripPrefix?_eq_some.mpr rfl

theorem isRound_havePackets (haves : List ObjectId) : ∀ p ∈ havePackets haves, IsRound p := by
  intro p hp
  obtain ⟨l, hl, rfl⟩ := List.mem_map.mp hp
  obtain ⟨t, ht, rfl⟩ := List.mem_map.mp hl
  obtain ⟨id, -, rfl⟩ := List.mem_map.mp ht
  exact ⟨_, stripPrefix?_haveText id⟩

/-- What is announced is what was offered. -/
theorem announced_havePackets {hashAlgo : HashAlgo} {haves : List ObjectId}
    (halgo : ∀ id ∈ haves, id.algo = hashAlgo) :
    announced hashAlgo (havePackets haves) = haves := by
  induction haves with
  | nil => rfl
  | cons id haves ih =>
    have hid := FetchRequest.idLine_toHex (halgo id List.mem_cons_self) "have: non-utf8"
    have hrest := ih fun x hx => halgo x (List.mem_cons_of_mem _ hx)
    have hone : (stripPrefix? (bytes "have ")
      (trimTrailingNewline (toUtf8 (str "have " ++ id.toHex ++ ['\n'])))).bind
        (fun hex => (FetchRequest.idLine hashAlgo "have: non-utf8" hex).toOption) = some id := by
      rw [stripPrefix?_haveText, Option.bind_some, hid]
      rfl
    rw [announced, havePackets, List.map_cons, List.map_cons, List.map_cons]
    refine Eq.trans (List.filterMap_cons_some ?_) (congrArg (id :: ·) hrest)
    exact hone

/-- A request for all that its wants lead to, and for a pack that is multiplexed in large chunks or
not at all. -/
structure PlainRequest (req : FetchRequest) : Prop where
  wants : req.wants ≠ []
  shallows : req.shallows = []
  deepen : req.deepen = none
  deepenSince : req.deepenSince = none
  deepenNot : req.deepenNot = []
  deepenRelative : req.deepenRelative = false
  filter : req.filter = none
  flags : ∀ key ∈ [str "side-band", str "include-tag"], req.capabilities.has key = false

section
variable {req : FetchRequest} {request response : Bytes} {view : RefView}

/-- The flags of such a request are read as they were sent. -/
theorem PlainRequest.has_sentFields (h : PlainRequest req) {key : Str} (hkey : key ≠ []) :
    (sentFields req).capabilities.has key = req.capabilities.has key := by
  have hsent : req.sentCapabilities = req.capabilities := by
    rw [FetchRequest.sentCapabilities, h.deepenRelative]
    rfl
  show req.sentCapabilities.named.has key = _
  rw [hsent, FetchRequest.has_named hkey]

theorem PlainRequest.isActive (h : PlainRequest req) :
    (Deepen.fromRequest (sentFields req)).isActive = false := by
  show (req.deepen.isSome || req.deepenSince.isSome || !req.deepenNot.isEmpty) = false
  rw [h.deepen, h.deepenSince, h.deepenNot]
  rfl

theorem PlainRequest.plainWant (h : PlainRequest req) (common : List ObjectId) :
    PlainWant (wantOf (sentFields req) common) (packOptions (sentFields req)) where
  clientShallow := h.shallows
  deepen := h.isActive
  filter := h.filter
  includeTag := (h.has_sentFields (by decide)).trans (h.flags _ (by decide))

/-- Such a request is read back. -/
theorem PlainRequest.readable {hashAlgo : HashAlgo} (h : PlainRequest req)
    (hcaps : req.capabilities.Separable) (hwants : ∀ want ∈ req.wants, want.algo = hashAlgo)
    (hhaves : ∀ v ∈ req.haves, v.algo = hashAlgo) :
    req.Readable hashAlgo := by
  refine ⟨hwants, hhaves, ?_, ?_, ?_, ?_, ?_, hcaps⟩
  · rw [h.shallows]
    exact fun id hid => absurd hid List.not_mem_nil
  · rw [h.deepen]
    exact fun depth hdepth => by cases hdepth
  · rw [h.deepenSince]
    exact fun since hsince => by cases hsince
  · rw [h.deepenNot]
    exact fun name hname => absurd hname List.not_mem_nil
  · rw [h.filter]
    exact fun filter hfilter => by cases hfilter

/-- **The answer to such a request** is a pack for its wants, planned for a client that has some of
what it offered. -/
theorem serveStateless_ok {finish : PackWriter → Except Error Bytes} (hplain : PlainRequest req)
    (hread : req.Readable (algo odb)) (henc : req.encode = .ok request)
    (h : serveStateless finish hasher odb view request = .ok response) :
    ∃ p w common before pack body,
      planPack hasher odb view (wantOf (sentFields req) common)
        (packOptions (sentFields req)) = .ok (p, w) ∧
      (∀ v ∈ common, v ∈ req.haves) ∧ Passed before ∧ finish w = .ok pack ∧
      encodePackStream (sentFields req).capabilities pack = .ok body ∧
        response = before ++ body := by
  obtain ⟨⟨req', out, sent⟩, hpack, h⟩ := except_bind_ok.mp h
  obtain ⟨⟨req'', rest⟩, hreq, hpack⟩ := except_bind_ok.mp hpack
  cases (statelessRequest_encode hread hplain.wants henc).symm.trans hreq
  obtain ⟨shallow, hshallow, hpack⟩ := except_bind_ok.mp hpack
  rw [shallowSection, hplain.isActive, if_neg Bool.false_ne_true] at hshallow
  cases hshallow
  obtain ⟨r, hr, hpack⟩ := except_bind_ok.mp hpack
  have hlast : trimTrailingNewline (bytes "done\n") = bytes "done" := by decide
  obtain ⟨hdone, hcommon⟩ := statelessRounds_done hlast (isRound_havePackets _)
    (fun x hx => absurd hx (BTreeSet.not_mem_empty x)) hr
  have hpassed := statelessRounds_passed hr passed_nil
  simp only [hdone, Bool.not_true, Bool.false_eq_true, if_false] at hpack
  obtain ⟨last, hfinal, hpack⟩ := except_bind_ok.mp hpack
  obtain ⟨⟨p, w⟩, hplan, hpack⟩ := except_bind_ok.mp hpack
  cases hpack
  obtain ⟨pack, hfinish, h⟩ := except_bind_ok.mp h
  obtain ⟨body, hbody, h⟩ := except_bind_ok.mp h
  cases h
  refine ⟨p, w, r.neg.common, r.out ++ last, pack, body, hplan, fun v hv => ?_,
    hpassed.append (passed_done hfinal), hfinish,
    hbody, rfl⟩
  have hv' := (hcommon v).mp hv
  rw [announced_havePackets hread.haves] at hv'
  exact (hv'.resolve_left List.not_mem_nil).1

/-- **What the client takes out of it is the pack.** -/
theorem responsePack_passed {before pack body pack' : Bytes} (hplain : PlainRequest req)
    (hbefore : Passed before) (hmagic : packMagic <+: pack)
    (hbody : encodePackStream (sentFields req).capabilities pack = .ok body)
    (h : responsePack req (before ++ body) = .ok pack') : pack' = pack := by
  obtain ⟨ps, hframed, hskip⟩ := hbefore
  have hsmall : (sentFields req).capabilities.has (str "side-band") = false :=
    (hplain.has_sentFields (by decide)).trans (hplain.flags _ (by decide))
  rw [encodePackStream, hplain.has_sentFields (by decide), hsmall] at hbody
  rw [responsePack] at h
  by_cases hside : req.capabilities.has (str "side-band-64k") = true
  · rw [if_pos hside] at h hbody
    obtain ⟨out, hout, rfl⟩ := except_map_ok.mp hbody
    obtain ⟨out', hout', hchunks⟩ :=
      framed_sideband (n := maxPktlineLen - 5) (by decide) (by decide) pack
    cases hout.symm.trans hout'
    rw [demuxSidebandPack_framed hframed hskip hchunks (by rwa [flatten_toChunks]),
      flatten_toChunks] at h
    exact (Except.ok.inj h).symm
  · rw [if_neg hside, if_neg Bool.false_ne_true] at hbody
    cases hbody
    have hne : pack ≠ [] := by
      rintro rfl
      cases List.prefix_nil.mp hmagic
    have hstop : ∀ n, stripScan n pack = .ok pack := by
      intro n
      cases n with
      | zero => rw [stripScan, if_pos (List.isPrefixOf_iff_prefix.mpr hmagic)]
      | succ n => rw [stripScan, if_pos (List.isPrefixOf_iff_prefix.mpr hmagic)]
    rw [if_neg hside, stripToPack, stripScan_framed hframed hne] at h
    split at h
    · rw [hstop] at h
      exact (Except.ok.inj h).symm
    · cases h

/-- A pack is no longer than its packets. -/
theorem length_le_chunks {chunks : List Bytes} {out : Bytes}
    (h : Framed (chunks.map fun c => .data (1 :: c)) out) : chunks.flatten.length ≤ out.length := by
  induction chunks generalizing out with
  | nil => exact Nat.zero_le _
  | cons c cs ih =>
    obtain _ | ⟨hp, hps⟩ := h
    have hrest := ih hps
    change encodeData (1 :: c) = _ at hp
    rw [encodeData] at hp
    split at hp
    · cases hp
    · cases hp
      rw [List.flatten_cons]
      simp only [List.length_append, List.length_cons]
      omega

theorem length_le_encodePackStream {caps : Capabilities} {pack body : Bytes}
    (h : encodePackStream caps pack = .ok body) :
    pack.length ≤ body.length := by
  have hside : ∀ {n : Nat}, 0 < n → n + 5 ≤ maxPktlineLen → ∀ {body : Bytes},
      (sideband n pack).map (· ++ flushPkt) = .ok body → pack.length ≤ body.length := by
    intro n hn hfit body h
    obtain ⟨out, hout, rfl⟩ := except_map_ok.mp h
    obtain ⟨out', hout', hchunks⟩ := framed_sideband hn hfit pack
    cases hout.symm.trans hout'
    have hle := length_le_chunks hchunks
    rw [flatten_toChunks] at hle
    rw [List.length_append]
    exact hle.trans (Nat.le_add_right _ _)
  rw [encodePackStream] at h
  split at h
  · exact hside (by decide) (by decide) h
  split at h
  · exact hside (by decide) (by decide) h
  · cases h
    exact Nat.le_refl _

end

end

/-! ## What is advertised -/

section
variable {D : Type} [ObjectDatabase D] {odb : D}

theorem peelTagGo_reached {n : Nat} {cur p : ObjectId} (h : peelTagGo odb n cur = some p) :
    ReflTransGen (Refers (graph odb)) cur p := by
  induction n generalizing cur with
  | zero =>
    cases h
    exact .refl
  | succ n ih =>
    rw [peelTagGo] at h
    split at h
    · rename_i payload hread
      split at h
      · rename_i tag htag
        have hstep : Refers (graph odb) cur tag.object :=
          TagRef.refers ⟨tag, readPresent_tag (readPresent_some.mpr hread) htag, rfl⟩
        exact .head hstep (ih h)
      · cases h
    · cases h
      exact .refl

/-- What a tag peels to it leads to. -/
theorem peelTag_reached {id p : ObjectId} (h : peelTag odb id = some p) :
    ReflTransGen (Refers (graph odb)) id p := by
  rw [peelTag, Option.filter_eq_some_iff] at h
  exact peelTagGo_reached h.1

/-- What a whole object leads to is whole. -/
theorem whole_of_reached {id x : ObjectId} (h : Whole odb id)
    (hx : ReflTransGen (Refers (graph odb)) id x) : Whole odb x :=
  fun y hy => h y (hx.trans hy)

namespace Remote

/-- What a client that fetches reads of the advertisement. -/
def offer (agent : Str) (capabilities : List Str) (remote : Remote D) :
    Except Error RefAdvertisement := do
  let out ← advertiseRefs remote.odb (accessOf remote.refs) .uploadPack agent capabilities
  let packets ← decodeAll out
  RefAdvertisement.parse (algo remote.odb) packets

/-- Serves a fetch. -/
def upload (z : Zlib) (hasher : Hasher) (request : Bytes) (remote : Remote D) :
    Except Error Bytes :=
  serveStateless (fun w => (w.finish z).map (·.pack)) hasher remote.odb
    (accessOf remote.refs).view request

variable {agent : Str} {capabilities : List Str} {remote : Remote D} {advert : RefAdvertisement}

/-- **What is offered is there.** -/
theorem whole_of_offer (hstored : Stored remote.odb remote.refs)
    (h : remote.offer agent capabilities = .ok advert) :
    ∀ r ∈ advert.refs, r.id.isZero = false → Whole remote.odb r.id := by
  obtain ⟨out, hout, h⟩ := except_bind_ok.mp h
  obtain ⟨packets, hpackets, h⟩ := except_bind_ok.mp h
  obtain ⟨listed, hlisted, -⟩ := except_bind_ok.mp hout
  rw [advertiseRefs_eq hlisted] at hout
  obtain ⟨body, hbody, rfl⟩ := except_map_ok.mp hout
  cases (decodeAll_message hbody).symm.trans hpackets
  rw [RefAdvertisement.parse, foldLines_encoded] at h
  obtain ⟨s, hs, rfl⟩ := except_map_ok.mp h
  intro r hr hzero
  have hhead : ∀ pair ∈ ((accessOf remote.refs).resolve (str "HEAD")).toOption.map (fun head =>
    (str "HEAD", head)),
      Whole remote.odb pair.2 := by
    intro pair hpair
    obtain ⟨head, hresolve, rfl⟩ := Option.map_eq_some_iff.mp hpair
    exact hstored.resolve (toOption_eq_some.mp hresolve)
  have hnamed : ∀ pair ∈ listed.toList.flatMap (withPeeled remote.odb),
      Whole remote.odb pair.2 := by
    intro pair hpair
    obtain ⟨ref, href, hpair⟩ := List.mem_flatMap.mp hpair
    have hwhole : Whole remote.odb ref.2 :=
      hstored.list hlisted ref.1 ref.2 (BTreeMap.get?_eq_some.mpr href)
    rcases List.mem_cons.mp hpair with rfl | hpair
    · exact hwhole
    · obtain ⟨p, hp, rfl⟩ := Option.map_eq_some_iff.mp (Option.mem_toList.mp hpair)
      exact whole_of_reached hwhole (peelTag_reached hp)
  have hpairs : advertPairs remote.odb (accessOf remote.refs) listed ≠ [] ∧
      ∀ pair ∈ advertPairs remote.odb (accessOf remote.refs) listed, pair.2.isZero = true ∨
        Whole remote.odb pair.2 := by
    have hall : ∀ pair ∈ (((accessOf remote.refs).resolve (str "HEAD")).toOption.map fun head =>
      (str "HEAD", head)).toList ++
        listed.toList.flatMap (withPeeled remote.odb), Whole remote.odb pair.2 := by
      intro pair hpair
      rcases List.mem_append.mp hpair with hpair | hpair
      · exact hhead pair (Option.mem_toList.mp hpair)
      · exact hnamed pair hpair
    rw [advertPairs]
    split
    · refine ⟨List.cons_ne_nil _ _, fun pair hpair => Or.inl ?_⟩
      rw [List.mem_singleton.mp hpair]
      cases algo remote.odb with
      | sha1 => rfl
      | sha256 => rfl
    · rename_i hne
      exact ⟨hne, fun pair hpair => Or.inr (hall pair hpair)⟩
  obtain ⟨pair, hpair, hid⟩ := readAdvert_ids hpairs.1 hs r hr
  rw [← hid] at hzero ⊢
  refine (hpairs.2 pair hpair).resolve_left fun h => ?_
  rw [h] at hzero
  cases hzero

end Remote

end

/-! ## A pack is received -/

section
variable {hasher : Hasher} {hashAlgo : HashAlgo} {z : Zlib} {out : Outside}
  {history : History hasher hashAlgo}

/-- A repository that is not shallow, is what its files say, and has of the objects there are some
with all that they lead to, among them those of its refs. -/
structure Intact (out : Outside) (z : Zlib) (history : History hasher hashAlgo)
    (repo : Repository) : Prop where
  zlib_eq : repo.odb.loose.zlib = z
  hasher_eq : repo.odb.loose.hasher = hasher
  algo_eq : repo.odb.loose.algo = hashAlgo
  opened : repo.odb.Opened out
  serves : repo.odb.Serves history.object
  whole : ∀ id, repo.odb.contains id = true → Whole repo.odb id
  stored : Stored repo.odb repo.refs
  shallow : repo.shallow = .ok []

/-- The store of such a repository partakes. -/
theorem Intact.partakes {repo : Repository} (h : Intact out z history repo) :
    Partakes history repo.odb where
  algo_eq := h.algo_eq
  read hr := h.serves.same _ _ _ hr

variable {odb odb' : CombinedOdb} {objects : List ExplodedObject} {ids : List ObjectId}

/-- **Objects of the history that are stored** are added, and the store can be opened as it is
then. -/
theorem storeObjects_grows (hz : z.Exact) (hcap : z.CapsOnly) (hsmall : history.Loose)
    (hzlib : odb.loose.zlib = z) (hhasher : odb.loose.hasher = hasher)
    (halgo : odb.loose.algo = hashAlgo) (hopened : odb.Opened out)
    (hobjects : ∀ o ∈ objects, history.object o.1 = some o.2)
    (h : CombinedOdb.storeObjects objects odb = some (.ok ids, odb')) :
    CombinedOdb.Added history.object odb odb' ∧ odb'.Opened out ∧
      ∀ x, odb'.loose.contains x = true ↔ odb.loose.contains x = true ∨ ∃ o ∈ objects, o.1 = x := by
  obtain ⟨hloose, -, -⟩ := Outside.openOdb_ok hopened
  have hmax : odb.loose.maxObjectSize = 2 ^ 30 := by
    rw [hloose]
    rfl
  have hstorable : ∀ o ∈ objects, CombinedOdb.Storable history.object odb o := by
    intro o ho
    obtain ⟨id, ty, payload⟩ := o
    have hobject := hobjects _ ho
    refine ⟨?_, hobject, ?_⟩
    · rw [hhasher, halgo]
      exact history.hash hobject
    · rw [hmax]
      exact hsmall hobject
  obtain ⟨hadded, hin⟩ := CombinedOdb.storeObjects_added (by rw [hzlib]; exact hz)
    (by rw [hzlib]; exact hcap) (by rw [hmax]; decide) hstorable h
  obtain ⟨r, odb'', hrun, hgrown, -⟩ := CombinedOdb.storeObjects_returns objects odb
  cases h.symm.trans hrun
  exact ⟨hadded, hopened.grown hgrown, hin⟩

/-- Behind a pack and nothing else there is no other. -/
theorem ingestPacks_nil (n : Nat) (odb : CombinedOdb) :
    CombinedOdb.ingestPacks n [] odb = some (.ok [], odb) := by
  cases n with
  | zero => rfl
  | succ n => rfl

section
variable {C : Type} [ObjectDatabase C] {client : C} {new : ObjectId} {haves : List ObjectId}
  {w : PackWriter}
  {output : PackWriter.PackOutput} {repo repo' : Repository} {n : Nat}

/-- **A pack that is ingested** has its objects added. -/
theorem ingestPack_carries (hz : z.Exact) (hcap : z.CapsOnly) (hsmall : history.Loose)
    (hrepo : Intact out z history repo) (hclient : Partakes history client)
    (hw : Carries hasher client new haves w) (houtput : w.finish z = .ok output)
    (hlen : output.pack.length < 2 ^ 64)
    (h : CombinedOdb.ingestPack output.pack repo.odb = some (.ok ids, odb')) :
    CombinedOdb.Added history.object repo.odb odb' ∧ odb'.Opened out ∧
      ∀ x, odb'.loose.contains x = true ↔ repo.odb.loose.contains x = true ∨ ∃ e ∈ w.entries,
        e.id = x := by
  have hmagic : packSignature.isPrefixOf output.pack = true := isPrefixOf_finish houtput
  rw [CombinedOdb.ingestPack, CombinedOdb.ingestPacks, if_pos hmagic] at h
  obtain ⟨⟨objects, consumed⟩, hexplode, h⟩ := Exec.read_bind_ok.mp h
  obtain ⟨written, odb₁, hstore, h⟩ := Exec.bind_ok.mp h
  obtain ⟨more, odb₂, hmore, h⟩ := Exec.bind_ok.mp h
  cases h
  -- what is decoded is what was packed, to the end of the data
  have hdecoded : explodePackPrefix z hasher output.pack hashAlgo (ObjectDatabase.read repo.odb) =
      .ok (objects, consumed) := by
    rw [← hexplode, CombinedOdb.explode, hrepo.zlib_eq, hrepo.hasher_eq, hrepo.algo_eq]
    rfl
  rw [← hrepo.partakes.algo_eq] at hdecoded
  obtain ⟨rfl, rfl⟩ :=
    Prod.mk.inj (explodePackPrefix_carries hz hclient hrepo.partakes hw houtput hlen hdecoded)
  rw [List.drop_length, ingestPacks_nil] at hmore
  cases hmore
  obtain ⟨hadded, hopened, hin⟩ :=
    storeObjects_grows hz hcap hsmall hrepo.zlib_eq hrepo.hasher_eq hrepo.algo_eq
    hrepo.opened (fun o ho => by
      obtain ⟨e, he, rfl⟩ := List.mem_map.mp ho
      exact hclient.read (hw.entries e he)) hstore
  refine ⟨hadded, hopened, fun x => ?_⟩
  rw [hin]
  refine or_congr_right ⟨?_, ?_⟩
  · rintro ⟨o, ho, rfl⟩
    obtain ⟨e, he, rfl⟩ := List.mem_map.mp ho
    exact ⟨e, he, rfl⟩
  · rintro ⟨e, he, rfl⟩
    exact ⟨_, List.mem_map_of_mem he, rfl⟩

/-- What is there after the entries of a pack were added was there before, or is one of them. -/
theorem contains_cases {id : ObjectId} (hadded : CombinedOdb.Added history.object odb odb')
    (hin : odb'.loose.contains id = true ↔ odb.loose.contains id = true ∨
      ∃ e ∈ w.entries, e.id = id)
    (h : odb'.contains id = true) : odb.contains id = true ∨ ∃ e ∈ w.entries, e.id = id := by
  rcases hadded.contains_iff.mp h with hloose | hold
  · rcases hin.mp hloose with hold | he
    · left
      rw [CombinedOdb.contains, ObjectStore.contains, hold]
      rfl
    · exact Or.inr he
  · exact Or.inl hold

/-- What could be read can be read when objects have been added. -/
theorem grows_of_added (hserves : odb.Serves history.object)
    (hadded : CombinedOdb.Added history.object odb odb') :
    Grows odb odb' := by
  intro id o ho
  obtain ⟨ty, payload, hread, hparse⟩ := graph_eq_some.mp ho
  have halgo : algo odb' = algo odb := by
    show odb'.loose.algo = odb.loose.algo
    rw [hadded.settings]
  refine graph_eq_some.mpr ⟨ty, payload, hadded.readDepth hserves hread, ?_⟩
  rw [halgo]
  exact hparse

end

/-- An object of the history has an id of its algorithm. -/
theorem algo_of_object {id : ObjectId} {r : ObjectType × Bytes} (h : history.object id = some r) :
    id.algo = hashAlgo := by
  have hhash : hashObject hasher hashAlgo r.1 r.2 = id := history.hash h
  rw [← hhash]
  rfl

section
variable {D : Type} [ObjectDatabase D] {remote : Remote D} {req : FetchRequest}
  {request response : Bytes}
  {repo repo' : Repository} {n : Nat}

/-- **A repository that receives what it asked for stays intact**, and has all of its wants then. -/
theorem Intact.received (hz : z.Exact) (hcap : z.CapsOnly) (hsmall : history.Loose)
    (hrepo : Intact out z history repo) (hremote : Partakes history remote.odb)
    (hplain : PlainRequest req) (hcaps : req.capabilities.Separable)
    (hwants : ∀ want ∈ req.wants, Whole remote.odb want)
    (hhaves : ∀ v ∈ req.haves, repo.odb.contains v = true) (henc : req.encode = .ok request)
    (hserve : remote.upload z hasher request = .ok response)
    (hlen : response.length ≤ maxBuffer) (h : receive out req response repo = some (.ok n, repo')) :
    Intact out z history repo' ∧ Grows repo.odb repo'.odb ∧ repo'.fs = repo.fs ∧
      ∀ want ∈ req.wants, Whole repo'.odb want := by
  have hpartakes := hrepo.partakes
  have hshared : ∀ {x}, Holds (graph remote.odb) x → x.algo = algo remote.odb := by
    intro x hx
    obtain ⟨r, hr⟩ := exists_read_of_holds hx
    rw [hremote.algo_eq]
    exact algo_of_object (hremote.read hr)
  have hread : req.Readable (algo remote.odb) := by
    refine hplain.readable hcaps (fun want hwant => hshared (hwants want hwant want .refl))
      fun v hv => ?_
    obtain ⟨r, hr⟩ := hrepo.serves.reads v (hhaves v hv)
    rw [hremote.algo_eq]
    exact algo_of_object (hpartakes.read hr)
  obtain ⟨p, w, common, before, pack, body, hplan, hcommon, hpassed, hfinish, hbody, rfl⟩ :=
    serveStateless_ok hplain hread henc hserve
  obtain ⟨output, houtput, rfl⟩ := except_map_ok.mp hfinish
  obtain ⟨hcarries, hreached⟩ :=
    planPack_carries hremote.sound (hplain.plainWant common) hwants hplan
  have hpack : output.pack.length < 2 ^ 64 := by
    have hle := length_le_encodePackStream hbody
    rw [List.length_append, maxBuffer] at hlen
    omega
  have hmagic : packMagic <+: output.pack :=
    List.isPrefixOf_iff_prefix.mp (isPrefixOf_finish houtput)
  -- what is taken out of the answer is the pack
  obtain ⟨pack', hpack', h⟩ := Exec.ofExcept_bind_ok.mp h
  cases responsePack_passed hplain hpassed hmagic hbody hpack'
  obtain ⟨ids, repo₁, hingest, h⟩ := Exec.bind_ok.mp h
  obtain ⟨⟨r, odb'⟩, hrun, heq⟩ := Option.map_eq_some_iff.mp hingest
  obtain ⟨rfl, rfl⟩ := Prod.mk.inj heq
  obtain ⟨want₀, wants, hcons⟩ := List.exists_cons_of_ne_nil hplain.wants
  have hwant₀ : want₀ ∈ (wantOf (sentFields req) common).wants := by
    show want₀ ∈ req.wants
    rw [hcons]
    exact List.mem_cons_self
  obtain ⟨hadded, hopened, hin⟩ :=
    ingestPack_carries hz hcap hsmall hrepo hremote (hcarries want₀ hwant₀)
    houtput hpack hrun
  -- it is opened as it is
  obtain ⟨u, repo₂, hreload, h⟩ := Exec.bind_ok.mp h
  obtain ⟨-, rfl⟩ := Prod.mk.inj (Option.some.inj h)
  obtain ⟨r, repo₂', hrun', hfs, halgo, -, hodb⟩ :=
    Repository.reload_returns out { repo with odb := odb' }
  cases hreload.symm.trans hrun'
  have hsame : repo₂.odb = odb' := (Except.ok.inj (hopened.symm.trans (hodb rfl))).symm
  have hserves : odb'.Serves history.object := hadded.serves hrepo.serves
  have hgrows : Grows repo.odb odb' := grows_of_added hrepo.serves hadded
  have hstays : Partakes history odb' := by
    refine ⟨?_, fun hr => hserves.same _ _ _ hr⟩
    show odb'.loose.algo = hashAlgo
    rw [hadded.settings]
    exact hrepo.algo_eq
  have hentries : ∀ e ∈ w.entries, ∃ r, ObjectDatabase.read odb' e.id = .ok r := fun e he =>
    hserves.reads e.id (hadded.contains_iff.mpr (Or.inl ((hin e.id).mpr (Or.inr ⟨e, he, rfl⟩))))
  have hall : ∀ want ∈ req.wants, Whole odb' want := by
    intro want hwant
    refine whole_of_carries hremote hstays (hcarries want hwant) (fun v hv => ?_) hentries
    have hv' : v ∈ common := List.mem_of_mem_filter hv
    exact (hrepo.whole v (hhaves v (hcommon v hv'))).grow hgrows
  have hwhole : ∀ id, odb'.contains id = true → Whole odb' id := by
    intro id hid
    rcases contains_cases hadded (hin id) hid with hold | ⟨e, he, rfl⟩
    · exact (hrepo.whole id hold).grow hgrows
    · obtain ⟨want, hwant, hpath⟩ := hreached e he
      exact whole_of_reached (hall want hwant)
        (reached_of_whole hremote hstays (hall want hwant) hpath)
  have hrefs : repo₂.refs = repo.refs := by
    show (⟨repo₂.fs, repo₂.odb.loose.algo⟩ : RefStore) = ⟨repo.fs, repo.odb.loose.algo⟩
    rw [hfs, hsame, hadded.settings]
  have hsettings := hadded.settings
  rw [← hsame] at hopened hserves hgrows hwhole hall hsettings
  refine ⟨⟨?_, ?_, ?_, hopened, hserves, hwhole, ?_, ?_⟩, hgrows, hfs, hall⟩
  · rw [hsettings]
    exact hrepo.zlib_eq
  · rw [hsettings]
    exact hrepo.hasher_eq
  · rw [hsettings]
    exact hrepo.algo_eq
  · rw [hrefs]
    exact hrepo.stored.grow hgrows
  · have hboundary : repo₂.shallow = repo.shallow := by
      rw [Repository.shallow, Repository.shallow, hfs, show repo₂.algo = repo.algo by
        rw [Repository.algo, Repository.algo, hsettings]]
    rw [hboundary]
    exact hrepo.shallow

end

/-! ## What a fetch asks for -/

section
variable {caps : Capabilities} {flags : List Str} {hashAlgo : HashAlgo}

/-- What a client agrees to, of the flags it prefers. -/
def agreed (caps : Capabilities) (flags : List Str) (hashAlgo : HashAlgo) : Capabilities :=
  (caps.negotiateFlags flags).addValue (str "object-format") hashAlgo.name

/-- What is agreed on is read as it is written. -/
theorem separable_agreed (hflags : ∀ key ∈ flags, ' ' ∉ key ∧ '=' ∉ key) :
    (agreed caps flags hashAlgo).Separable := by
  intro item hitem
  rcases List.mem_append.mp hitem with hitem | hitem
  · rw [Capabilities.negotiateFlags_items] at hitem
    obtain ⟨key, hkey, rfl⟩ := List.mem_map.mp hitem
    obtain ⟨hspace, hequals⟩ := hflags key (List.mem_of_mem_filter hkey)
    exact ⟨hspace, hequals, fun value hvalue => by cases hvalue⟩
  · rw [List.mem_singleton.mp hitem]
    cases hashAlgo with
    | sha1 => decide
    | sha256 => decide

/-- What is not preferred is not agreed to. -/
theorem not_has_agreed {key : Str} (hkey : key ∉ flags) (hne : key ≠ str "object-format") :
    (agreed caps flags hashAlgo).has key = false := by
  rw [Bool.eq_false_iff]
  intro hhas
  obtain ⟨item, hitem, heq⟩ := List.any_eq_true.mp hhas
  obtain rfl : item.1 = key := beq_iff_eq.mp heq
  rcases List.mem_append.mp hitem with hitem | hitem
  · rw [Capabilities.negotiateFlags_items] at hitem
    obtain ⟨key, hmem, rfl⟩ := List.mem_map.mp hitem
    exact hkey (List.mem_of_mem_filter hmem)
  · exact hne (by rw [List.mem_singleton.mp hitem])

/-- The request of a fetch without a depth or a filter. -/
def plainRequest (caps : Capabilities) (flags : List Str) (hashAlgo : HashAlgo)
    (wants haves : List ObjectId) : FetchRequest :=
  { FetchRequest.default with
    wants := wants, haves := haves, capabilities := agreed caps flags hashAlgo }

theorem plainRequest_plain {wants haves : List ObjectId} (hwants : wants ≠ [])
    (hside : str "side-band" ∉ flags) (htag : str "include-tag" ∉ flags) :
    PlainRequest (plainRequest caps flags hashAlgo wants haves) where
  wants := hwants
  shallows := rfl
  deepen := rfl
  deepenSince := rfl
  deepenNot := rfl
  deepenRelative := rfl
  filter := rfl
  flags key hkey := by
    rcases List.mem_cons.mp hkey with rfl | hkey
    · exact not_has_agreed hside (by decide)
    · rw [List.mem_singleton.mp hkey]
      exact not_has_agreed htag (by decide)

end

/-! ## What is asked of a remote -/

/-- A repository to fetch from: as it is when it advertises, and as it is at each of the
requests. -/
structure Source (D : Type) where
  agent : Str
  capabilities : List Str
  first : Remote D
  later : Nat → Remote D

/-- The connection in the same process, at a request.  An answer that does not fit in memory never
comes. -/
def Source.transport {D : Type} [ObjectDatabase D] (z : Zlib) (hasher : Hasher) (s : Source D)
    (n : Nat) : Transport where
  discover := s.first.offer s.agent s.capabilities
  exchange request := do
    let response ← (s.later n).upload z hasher request
    if response.length ≤ maxBuffer then .ok response else .error (.io (str "out of memory"))

/-- The advertised ids that a repository lacks. -/
def missing (advert : RefAdvertisement) (repo : Repository) : List ObjectId :=
  (advert.refs.filter fun r => !r.id.isZero && !repo.odb.contains r.id).map AdvertisedRef.id

section
variable {D : Type} [ObjectDatabase D] {s : Source D} {repo : Repository}
  {advert : RefAdvertisement}
  {refs : List AdvertisedRef} {req : FetchRequest} {request response : Bytes} {n : Nat}

theorem exchange_ok (h : (s.transport z hasher n).exchange request = .ok response) :
    (s.later n).upload z hasher request = .ok response ∧ response.length ≤ maxBuffer := by
  obtain ⟨response', hupload, h⟩ := except_bind_ok.mp h
  by_cases hfits : response'.length ≤ maxBuffer
  · rw [if_pos hfits] at h
    cases h
    exact ⟨hupload, hfits⟩
  · rw [if_neg hfits] at h
    cases h

/-- A request for what is missing, of a client that has what it offers, and the answer to it. -/
structure Answered (z : Zlib) (hasher : Hasher) (s : Source D) (repo : Repository)
    (advert : RefAdvertisement) (req : FetchRequest) (response : Bytes) : Prop where
  plain : PlainRequest req
  separable : req.capabilities.Separable
  wants : req.wants = missing advert repo
  haves : ∀ v ∈ req.haves, repo.odb.contains v = true
  answer : ∃ n request, req.encode = .ok request ∧
    (s.later n).upload z hasher request = .ok response
  fits : response.length ≤ maxBuffer

/-- What is advertised, and the request for what is missing of it and the answer, where there is
anything missing. -/
def Asks (z : Zlib) (hasher : Hasher) (s : Source D) (repo : Repository) (refs : List AdvertisedRef)
    (asked : Option (FetchRequest × Bytes)) : Prop :=
  ∃ advert, s.first.offer s.agent s.capabilities = .ok advert ∧ refs = advert.refs ∧
    (asked = none ∧ missing advert repo = [] ∨
      ∃ req response, asked = some (req, response) ∧ Answered z hasher s repo advert req response)

/-- **What a fetch asks for**: what is missing, if there is anything missing. -/
theorem negotiate_asks (hshallow : repo.shallow = .ok []) (hwhole : Stored repo.odb repo.refs)
    {asked : Option (FetchRequest × Bytes)}
    (h : negotiate (s.transport z hasher 0) none none repo = .ok (refs, asked)) :
    Asks z hasher s repo refs asked := by
  obtain ⟨advert, hadvert, h⟩ := except_bind_ok.mp h
  obtain ⟨wants, hwants, h⟩ := except_bind_ok.mp h
  have hmissing : fetchWants advert none repo = .ok (missing advert repo) := rfl
  cases hmissing.symm.trans hwants
  refine ⟨advert, hadvert, ?_⟩
  by_cases hnone : missing advert repo = []
  · rw [if_pos (List.isEmpty_iff.mpr hnone)] at h
    cases h
    exact ⟨rfl, Or.inl ⟨rfl, hnone⟩⟩
  rw [if_neg fun hempty => hnone (List.isEmpty_iff.mp hempty)] at h
  obtain ⟨req, hreq, h⟩ := except_bind_ok.mp h
  obtain ⟨request, hrequest, h⟩ := except_bind_ok.mp h
  obtain ⟨response, hresponse, h⟩ := except_bind_ok.mp h
  cases h
  obtain ⟨hupload, hfits⟩ := exchange_ok hresponse
  obtain ⟨listed, hlisted, hreq⟩ := except_bind_ok.mp hreq
  obtain ⟨shallows, hshallows, hreq⟩ := except_bind_ok.mp hreq
  cases hshallow.symm.trans hshallows
  cases hreq
  have hplain : PlainRequest (plainRequest advert.capabilities fetchFlags repo.algo
    (missing advert repo)
      (listed.toList.map Prod.snd)) := plainRequest_plain hnone (by decide) (by decide)
  refine ⟨rfl, Or.inr ⟨_, response, rfl, hplain, separable_agreed (by decide), rfl,
    fun v hv => ?_, ⟨0, request, hrequest, hupload⟩, hfits⟩⟩
  obtain ⟨ref, href, rfl⟩ := List.mem_map.mp hv
  obtain ⟨r, hr⟩ := exists_read_of_holds
    (hwhole.list hlisted ref.1 ref.2 (BTreeMap.get?_eq_some.mpr href) ref.2 .refl)
  exact CombinedOdb.contains_of_read hr

/-- **What a fetch asks for that negotiates**: the same, of a client that has what it offered in the
rounds. -/
theorem negotiateRounds_asks {asked : Option (FetchRequest × Bytes)}
    (h : negotiateRounds (s.transport z hasher) repo = .ok (refs, asked)) :
    Asks z hasher s repo refs asked := by
  obtain ⟨advert, hadvert, h⟩ := except_bind_ok.mp h
  refine ⟨advert, hadvert, ?_⟩
  change (if (missing advert repo).isEmpty = true then _ else _) = _ at h
  by_cases hnone : missing advert repo = []
  · rw [if_pos (List.isEmpty_iff.mpr hnone)] at h
    cases h
    exact ⟨rfl, Or.inl ⟨rfl, hnone⟩⟩
  rw [if_neg fun hempty => hnone (List.isEmpty_iff.mp hempty)] at h
  obtain ⟨listed, -, h⟩ := except_bind_ok.mp h
  obtain ⟨⟨offered, round⟩, hrounds, h⟩ := except_bind_ok.mp h
  obtain ⟨request, hrequest, h⟩ := except_bind_ok.mp h
  obtain ⟨response, hresponse, h⟩ := except_bind_ok.mp h
  cases h
  obtain ⟨hupload, hfits⟩ := exchange_ok hresponse
  obtain ⟨-, hoffered, -⟩ := offerRounds_spec (List.nil_prefix) (by simp) hrounds
  have hplain : PlainRequest (plainRequest advert.capabilities negotiatedFlags repo.algo
      (missing advert repo) offered) :=
    plainRequest_plain hnone (by decide) (by decide)
  have hseparable : (agreed advert.capabilities negotiatedFlags repo.algo).Separable :=
    separable_agreed (by decide)
  refine ⟨rfl, Or.inr ⟨_, response, rfl, ⟨hplain.wants, rfl, rfl, rfl, rfl, rfl, rfl, hplain.flags⟩,
    hseparable, rfl, fun v hv => ?_, ⟨round, request, hrequest, hupload⟩, hfits⟩⟩
  obtain ⟨r, hr⟩ := read_localHistory v (hoffered.subset hv)
  exact CombinedOdb.contains_of_read hr

end

/-! ## Fetches, one after the other -/

section
variable {D : Type} [ObjectDatabase D]

/-- What a client does: it fetches, with one request or with a negotiation, or it sets a ref. -/
inductive Retrieval (D : Type) where
  | fetch (s : Source D)
  | fetchNegotiated (s : Source D)
  | update (name : Str) (id : ObjectId)

/-- The ids that were advertised. -/
def FetchOutcome.advertised (outcome : FetchOutcome) : List ObjectId :=
  (outcome.refs.map AdvertisedRef.id).filter fun id => !id.isZero

/-- Does it: what was to be retrieved. -/
def Retrieval.exec (out : Outside) (z : Zlib) (hasher : Hasher) :
    Retrieval D → Exec Repository Error (List ObjectId)
  | .fetch s => do
    let outcome ← doFetch out (s.transport z hasher 0) none none
    pure outcome.advertised
  | .fetchNegotiated s => do
    let outcome ← Client.fetchNegotiated out (s.transport z hasher)
    pure outcome.advertised
  | .update name id => Exec.step fun repo =>
    let updated := repo.refs.update name (.direct id)
    (updated.1.map fun _ => [], { repo with fs := updated.2.vfs })

/-- A repository to fetch from has objects of the history, and what its refs lead to.  It may change
while it is fetched from, as long as it keeps what could be read of it. -/
structure Source.Fit (z : Zlib) (history : History hasher hashAlgo) (s : Source D) : Prop where
  first : Partakes history s.first.odb
  stored : Stored s.first.odb s.first.refs
  later : ∀ n, Partakes history (s.later n).odb
  grows : ∀ n, Grows s.first.odb (s.later n).odb

/-- A ref is set to what is there. -/
def Retrieval.Fit (z : Zlib) (history : History hasher hashAlgo) (repo : Repository) :
    Retrieval D → Prop
  | .fetch s => s.Fit z history
  | .fetchNegotiated s => s.Fit z history
  | .update name id => name ≠ str "shallow" ∧ repo.odb.contains id = true

variable {s : Source D} {t : Retrieval D} {repo repo' repo₁ repo₂ : Repository}
  {advert : RefAdvertisement}
  {req : FetchRequest} {response : Bytes} {ids new : List ObjectId} {n : Nat}

/-- What is advertised and not missing is there. -/
theorem contains_of_not_missing (repo : Repository) {r : AdvertisedRef} (hr : r ∈ advert.refs)
    (hzero : r.id.isZero = false) :
    r.id ∈ missing advert repo ∨ repo.odb.contains r.id = true := by
  by_cases hcontains : repo.odb.contains r.id = true
  · exact Or.inr hcontains
  · left
    refine List.mem_map.mpr ⟨r, List.mem_filter.mpr ⟨hr, ?_⟩, rfl⟩
    rw [hzero, Bool.eq_false_iff.mpr hcontains]
    rfl

theorem mem_advertised {refs : List AdvertisedRef} {id : ObjectId}
    (h : id ∈ FetchOutcome.advertised ⟨refs, n⟩) :
    ∃ r ∈ refs, r.id = id ∧ r.id.isZero = false := by
  obtain ⟨hmem, hzero⟩ := List.mem_filter.mp h
  obtain ⟨r, hr, rfl⟩ := List.mem_map.mp hmem
  exact ⟨r, hr, rfl, by simpa using hzero⟩

/-- **What was advertised is there once it has been received.** -/
theorem Intact.answered (hz : z.Exact) (hcap : z.CapsOnly) (hsmall : history.Loose)
    (hrepo : Intact out z history repo) (hfit : s.Fit z history)
    (hadvert : s.first.offer s.agent s.capabilities = .ok advert)
    (hanswered : Answered z hasher s repo advert req response)
    (h : receive out req response repo = some (.ok n, repo')) :
    Intact out z history repo' ∧ Grows repo.odb repo'.odb ∧
      ∀ r ∈ advert.refs, r.id.isZero = false → Whole repo'.odb r.id := by
  obtain ⟨m, request, hencode, hanswer⟩ := hanswered.answer
  have hoffered := Remote.whole_of_offer hfit.stored hadvert
  have hwants : ∀ want ∈ req.wants, Whole (s.later m).odb want := by
    intro want hwant
    rw [hanswered.wants] at hwant
    obtain ⟨r, hr, rfl⟩ := List.mem_map.mp hwant
    obtain ⟨hr, hasked⟩ := List.mem_filter.mp hr
    rw [Bool.and_eq_true, Bool.not_eq_true'] at hasked
    exact (hoffered r hr hasked.1).grow (hfit.grows m)
  obtain ⟨hintact, hgrows, -, hall⟩ := hrepo.received hz hcap hsmall (hfit.later m) hanswered.plain
    hanswered.separable hwants hanswered.haves hencode hanswer hanswered.fits h
  refine ⟨hintact, hgrows, fun r hr hzero => ?_⟩
  rcases contains_of_not_missing repo hr hzero with hmissing | hold
  · exact hall r.id (hanswered.wants ▸ hmissing)
  · exact (hrepo.whole r.id hold).grow hgrows

/-- Where nothing is missing, what was advertised is there. -/
theorem Intact.complete (hrepo : Intact out z history repo) (hnone : missing advert repo = []) :
    ∀ r ∈ advert.refs, r.id.isZero = false → Whole repo.odb r.id := by
  intro r hr hzero
  rcases contains_of_not_missing repo hr hzero with hmissing | hold
  · rw [hnone] at hmissing
    exact absurd hmissing List.not_mem_nil
  · exact hrepo.whole r.id hold

/-- A repository without another boundary is not shallow either. -/
theorem Intact.shallow_of_file (hrepo : Intact out z history repo) (halgo : repo'.algo = repo.algo)
    (hfile : ∀ d, repo'.fs.get? Repository.shallowPath = some (.leaf d) →
      repo.fs.get? Repository.shallowPath = some (.leaf d)) :
    repo'.shallow = .ok [] := by
  by_cases hleaf : ∃ d, repo'.fs.get? Repository.shallowPath = some (.leaf d)
  · obtain ⟨d, hd⟩ := hleaf
    have hread' := (Vfs.read_of_resolve Repository.resolve_shallow).mpr hd
    have hread := (Vfs.read_of_resolve Repository.resolve_shallow).mpr (hfile d hd)
    have hshallow := hrepo.shallow
    rw [Repository.shallow, hread] at hshallow
    rw [Repository.shallow, hread', halgo]
    exact hshallow
  · exact Repository.shallow_of_no_leaf fun d hd => hleaf ⟨d, hd⟩

/-- A ref that is set to what is there leaves the repository intact. -/
theorem Intact.update (hrepo : Intact out z history repo) {name : Str} {id : ObjectId}
    (hname : name ≠ str "shallow") (hid : repo.odb.contains id = true) :
    Intact out z history { repo with fs := (repo.refs.update name (.direct id)).2.vfs } := by
  by_cases hcan : RefStore.CanUpdate repo.refs.vfs name
  · obtain ⟨-, halgo, hget⟩ := RefStore.update_of_canUpdate (.direct id) hcan
    have hrefs : ({ repo with fs := (repo.refs.update name (.direct id)).2.vfs } :
      Repository).refs =
        (repo.refs.update name (.direct id)).2 := by
      rw [Repository.refs]
      show (⟨_, repo.refs.algo⟩ : RefStore) = _
      rw [← halgo]
    refine ⟨hrepo.zlib_eq, hrepo.hasher_eq, hrepo.algo_eq, hrepo.opened, hrepo.serves,
      hrepo.whole, ?_, ?_⟩
    · rw [hrefs]
      exact hrepo.stored.update (hrepo.whole id hid) hcan
    · -- the file of the boundary is another one
      have hpath : Repository.shallowPath ≠ RefStore.refPath name := by
        intro heq
        exact hname (RefStore.refPath_injective (heq.symm.trans (show Repository.shallowPath =
          RefStore.refPath (str "shallow") by decide)))
      refine hrepo.shallow_of_file rfl fun d hd => ?_
      rw [hget, if_neg hpath] at hd
      split at hd
      · cases hd
      · exact hd
  · obtain ⟨e, he⟩ := RefStore.update_of_not_canUpdate (.direct id) hcan
    rw [he]
    exact hrepo

/-- What a fetch did: it asked for nothing, or received the answer. -/
def Received (out : Outside) (asked : Option (FetchRequest × Bytes))
    (repo repo' : Repository) : Prop :=
  asked = none ∧ repo' = repo ∨
    ∃ req response n, asked = some (req, response) ∧
      receive out req response repo = some (.ok n, repo')

theorem doFetch_ok {transport : Transport} {outcome : FetchOutcome}
    (h : doFetch out transport none none repo = some (.ok outcome, repo')) :
    ∃ asked, negotiate transport none none repo = .ok (outcome.refs, asked) ∧
      Received out asked repo repo' := by
  obtain ⟨⟨refs, asked⟩, hasked, h⟩ := Exec.read_bind_ok.mp h
  cases asked with
  | none =>
    obtain ⟨houtcome, rfl⟩ := Prod.mk.inj (Option.some.inj h)
    cases houtcome
    exact ⟨none, hasked, Or.inl ⟨rfl, rfl⟩⟩
  | some answered =>
    obtain ⟨received, repo₁, hreceive, h⟩ := Exec.bind_ok.mp h
    obtain ⟨houtcome, rfl⟩ := Prod.mk.inj (Option.some.inj h)
    cases houtcome
    exact ⟨_, hasked, Or.inr ⟨answered.1, answered.2, received, rfl, hreceive⟩⟩

theorem fetchNegotiated_ok {server : Nat → Transport} {outcome : FetchOutcome}
    (h : fetchNegotiated out server repo = some (.ok outcome, repo')) :
    ∃ asked, negotiateRounds server repo = .ok (outcome.refs, asked) ∧
      Received out asked repo repo' := by
  obtain ⟨⟨refs, asked⟩, hasked, h⟩ := Exec.read_bind_ok.mp h
  cases asked with
  | none =>
    obtain ⟨houtcome, rfl⟩ := Prod.mk.inj (Option.some.inj h)
    cases houtcome
    exact ⟨none, hasked, Or.inl ⟨rfl, rfl⟩⟩
  | some answered =>
    obtain ⟨received, repo₁, hreceive, h⟩ := Exec.bind_ok.mp h
    obtain ⟨houtcome, rfl⟩ := Prod.mk.inj (Option.some.inj h)
    cases houtcome
    exact ⟨_, hasked, Or.inr ⟨answered.1, answered.2, received, rfl, hreceive⟩⟩

/-- **A fetch leaves the repository intact**, with all of what was advertised. -/
theorem Intact.fetched (hz : z.Exact) (hcap : z.CapsOnly) (hsmall : history.Loose)
    (hrepo : Intact out z history repo) (hfit : s.Fit z history) {outcome : FetchOutcome}
    {asked : Option (FetchRequest × Bytes)} (hasked : Asks z hasher s repo outcome.refs asked)
    (h : Received out asked repo repo') :
    Intact out z history repo' ∧ Grows repo.odb repo'.odb ∧ ∀ id ∈ outcome.advertised,
      Whole repo'.odb id := by
  obtain ⟨advert, hadvert, hrefs, hcases⟩ := hasked
  have hadvertised : ∀ {odb : CombinedOdb}, (∀ r ∈ advert.refs, r.id.isZero = false →
    Whole odb r.id) →
      ∀ id ∈ outcome.advertised, Whole odb id := by
    intro odb hall id hid
    obtain ⟨r, hr, rfl, hzero⟩ := mem_advertised hid
    exact hall r (hrefs ▸ hr) hzero
  rcases hcases with ⟨hnone, hmissing⟩ | ⟨req, response, hsome, hanswered⟩
  · rcases h with ⟨-, rfl⟩ | ⟨req, response, n, hsome, -⟩
    · exact ⟨hrepo, fun _ _ ho => ho, hadvertised (hrepo.complete hmissing)⟩
    · cases hnone.symm.trans hsome
  · rcases h with ⟨hnone, -⟩ | ⟨req', response', n, hsome', hreceive⟩
    · cases hnone.symm.trans hsome
    · cases hsome.symm.trans hsome'
      obtain ⟨hintact, hgrows, hall⟩ :=
        hrepo.answered hz hcap hsmall hfit hadvert hanswered hreceive
      exact ⟨hintact, hgrows, hadvertised hall⟩

/-- **A step leaves the repository intact**, with all of what it was to retrieve. -/
theorem Intact.exec (hz : z.Exact) (hcap : z.CapsOnly) (hsmall : history.Loose)
    (hrepo : Intact out z history repo) (hfit : t.Fit z history repo)
    (h : t.exec out z hasher repo = some (.ok new, repo')) :
    Intact out z history repo' ∧ Grows repo.odb repo'.odb ∧ ∀ id ∈ new, Whole repo'.odb id := by
  cases t with
  | fetch s =>
    obtain ⟨outcome, repo₁, hfetch, h⟩ := Exec.bind_ok.mp h
    obtain ⟨hnew, rfl⟩ := Prod.mk.inj (Option.some.inj h)
    cases hnew
    obtain ⟨asked, hasked, hreceived⟩ := doFetch_ok hfetch
    exact hrepo.fetched hz hcap hsmall hfit
      (negotiate_asks hrepo.shallow hrepo.stored hasked) hreceived
  | fetchNegotiated s =>
    obtain ⟨outcome, repo₁, hfetch, h⟩ := Exec.bind_ok.mp h
    obtain ⟨hnew, rfl⟩ := Prod.mk.inj (Option.some.inj h)
    cases hnew
    obtain ⟨asked, hasked, hreceived⟩ := fetchNegotiated_ok hfetch
    exact hrepo.fetched hz hcap hsmall hfit (negotiateRounds_asks hasked) hreceived
  | update name id =>
    obtain ⟨hresult, rfl⟩ := Prod.mk.inj (Option.some.inj h)
    obtain ⟨u, -, rfl⟩ := except_map_ok.mp hresult
    exact ⟨hrepo.update hfit.1 hfit.2, fun _ _ ho => ho, fun x hx => absurd hx List.not_mem_nil⟩

/-- What comes of steps that follow on one another: what they were to retrieve, and the repository.
A step that fails before it stores anything leaves the repository as it was, and is none. -/
inductive Retrieved (D : Type) [ObjectDatabase D] (out : Outside) (z : Zlib)
    (history : History hasher hashAlgo) :
    Repository → List ObjectId → Repository → Prop
  | start (repo : Repository) : Retrieved D out z history repo [] repo
  | step {repo repo₁ repo₂ : Repository} {ids new : List ObjectId} {t : Retrieval D} :
      Retrieved D out z history repo ids repo₁ → t.Fit z history repo₁ →
      t.exec out z hasher repo₁ = some (.ok new, repo₂) →
        Retrieved D out z history repo (new ++ ids) repo₂

end

end

/-! ## A clone, and a fetch that negotiates -/

namespace RetrievalSample
open FetchSample PushSample DeliverySample

/-- A client with nothing in it. -/
def clone : Repository := ⟨FileTree.empty, .empty .stored Hasher.sha .sha1⟩

/-- A repository with one branch, which does not change while it is fetched from. -/
def source (tip : ObjectId) : Source MemoryOdb :=
  let remote : Remote MemoryOdb :=
    ⟨chainStore, (RefStore.update noRefs (str "refs/heads/main") (.direct tip)).2⟩
  ⟨[], [], remote, fun _ => remote⟩

/-- The branch is fetched, recorded, and fetched again. -/
def steps : List (Retrieval MemoryOdb) :=
  [.fetch (source first), .update (str "refs/remotes/origin/main") first,
    .fetchNegotiated (source first)]

/-- The client after so many of the steps. -/
def after (n : Nat) : Repository :=
  (steps.take n).foldl (fun repo t =>
    ((t.exec .sorted .stored Hasher.sha repo).map Prod.snd).getD repo) clone

theorem exec_steps : (steps.zipIdx.map fun t =>
    ((t.1.exec .sorted .stored Hasher.sha (after t.2)).map Prod.fst)) =
      [some (.ok [first]), some (.ok []), some (.ok [first])] := by
  decide +kernel

theorem intact_clone : Intact .sorted .stored history clone where
  zlib_eq := rfl
  hasher_eq := rfl
  algo_eq := rfl
  opened := rfl
  serves := CombinedOdb.serves_of_empty CombinedOdb.inner_empty_contains
  whole id hid := by cases (CombinedOdb.empty_contains id).symm.trans hid
  stored := stored_noRefs _
  shallow := by decide +kernel

theorem complete_chainStore : Complete chainStore :=
  MemoryOdb.complete_of_isComplete (by decide +kernel)

theorem holds_first : (graph chainStore first).isSome = true := by
  decide +kernel

theorem fit_source : (source first).Fit .stored history where
  first := partakes_historyOf _ _
  stored := by
    by_cases hcan : RefStore.CanUpdate PushSample.noRefs.vfs (str "refs/heads/main")
    · exact (stored_noRefs chainStore).update
        (whole_of_complete complete_chainStore holds_first) hcan
    · obtain ⟨e, he⟩ := RefStore.update_of_not_canUpdate (.direct first) hcan
      show Stored chainStore (RefStore.update PushSample.noRefs (str "refs/heads/main")
        (.direct first)).2
      rw [he]
      exact stored_noRefs chainStore
  later n := partakes_historyOf _ _
  grows n := fun _ _ ho => ho

end RetrievalSample

end Puregit.Client
