import Puregit.Refs.Format
import Puregit.Server.Negotiate
import Puregit.Server.Objects
import Puregit.Server.Pack

/-! # Serving a fetch

The three ways a fetch is served: one stateless request, a whole conversation over a
stream, and a v2 command.  Each parses what is wanted, negotiates, plans and packs; what
it answers before the pack and what goes into the pack are computed first, and turning a
`PackWriter` into bytes comes last and is left to a parameter.

No frontend checks the wanted ids against the refs: a pack holds what the wants reach,
and the tags included with it: `Sends.reached`.
-/
namespace Puregit.Server
open ObjectDatabase ObjectGraph PktLine Relation

/-! ## The ref store, as a server reads it -/

/-- What a server reads of a ref store. -/
structure RefAccess where
  lookup : Str → Except Error Reference
  resolve : Str → Except Error ObjectId
  list : Except Error (BTreeMap Str ObjectId)

namespace RefAccess

/-- A ref named in a request: the name itself, or under one of the usual places. -/
def resolveName (refs : RefAccess) (name : Str) : Option ObjectId :=
  [name, str "refs/" ++ name, str "refs/tags/" ++ name, str "refs/heads/" ++ name].findSome?
    fun n => (refs.resolve n).toOption

/-- The ids under `refs/tags/`. -/
def tags (refs : RefAccess) : List ObjectId :=
  match refs.list with
  | .ok refs => (refs.toList.filter fun b => startsWith b.1 (str "refs/tags/")).map Prod.snd
  | .error _ => []

/-- What a session needs of the refs. -/
def view (refs : RefAccess) : RefView := ⟨refs.resolveName, refs.tags⟩

end RefAccess

/-- The services a repository is served with. -/
inductive Service where
  | uploadPack
  | receivePack
  deriving DecidableEq

variable {D : Type} [ObjectDatabase D]

/-- The refs an advertisement lists: HEAD when it resolves, and every listed ref. -/
def advertisedRefs (refs : RefAccess) : Except Error (List (Str × ObjectId)) :=
  refs.list.map fun listed =>
    ((refs.resolve (str "HEAD")).toOption.map fun head =>
      (str "HEAD", head)).toList ++ listed.toList

/-- What a chain of tags ends at; none if the id is no tag. -/
def peelTagGo (odb : D) : Nat → ObjectId → Option ObjectId
  | 0, cur => some cur
  | n + 1, cur =>
    match read odb cur with
    | .ok (.tag, payload) =>
      match Tag.parse (algo odb) payload with
      | .ok tag => peelTagGo odb n tag.object
      | .error _ => none
    | _ => some cur

/-- The object an annotated tag peels to. -/
def peelTag (odb : D) (id : ObjectId) : Option ObjectId :=
  (peelTagGo odb tagLimit id).filter (· ≠ id)

/-- The capabilities of an advertisement. -/
def advertisedCaps (odb : D) (refs : RefAccess) (listed : BTreeMap Str ObjectId) (service : Service)
    (agent : Str) (capabilities : List Str) : Str :=
  let symref := match service, refs.lookup (str "HEAD") with
    | .uploadPack, .ok (.symbolic target) =>
      if listed.contains target then [str "symref=HEAD:" ++ target] else []
    | _, _ => []
  let format := if algo odb = .sha256 then [str "object-format=sha256"] else []
  let caps := capabilities ++ symref ++ format
  let caps := if caps.any fun c => startsWith c (str "agent=") then caps
    else caps ++ [str "agent=" ++ agent]
  List.intercalate [' '] caps

/-- The lines of the listed refs, each annotated tag of a fetch followed by what it
peels to. -/
def listedLines (odb : D) (service : Service) (listed : List (Str × ObjectId)) : List Str :=
  listed.flatMap fun ref =>
    (ref.2.toHex ++ ' ' :: ref.1) :: match service, peelTag odb ref.2 with
      | .uploadPack, some peeled => [peeled.toHex ++ ' ' :: ref.1 ++ str "^\x7b\x7d"]
      | _, _ => []

/-- Builds the ref advertisement a client reads first; the capabilities come after a NUL
on its first line. -/
def advertiseRefs (odb : D) (refs : RefAccess) (service : Service) (agent : Str)
    (capabilities : List Str) : Except Error Bytes := do
  let listed ← refs.list
  let head := (refs.resolve (str "HEAD")).toOption.map fun id => id.toHex ++ str " HEAD"
  let caps := Char.ofNat 0 :: advertisedCaps odb refs listed service agent capabilities
  let lines := match head.toList ++ listedLines odb service listed.toList with
    | [] => [(ObjectId.zero (algo odb)).toHex ++ str " capabilities^\x7b\x7d" ++ caps]
    | first :: rest => (first ++ caps) :: rest
  let body ← ReportStatus.encodeLines (lines.map (· ++ ['\n']))
  .ok (body ++ flushPkt)

/-! ## Planning and packing -/

/-- What a frontend asks the packer for besides the wants. -/
structure PackOptions where
  includeTag : Bool
  filter : Option Str
  thin : Bool

/-- Adds the tags a response includes, if they were asked for. -/
def withTags (odb : D) (refs : RefView) (opts : PackOptions) (p : Plan) : Except Error Plan :=
  if opts.includeTag then includeTags odb refs.tags p else .ok p

/-- Plans a response and queues its objects. -/
def planPack (hasher : Hasher) (odb : D) (refs : RefView) (req : Want) (opts : PackOptions) :
    Except Error (Plan × PackWriter) := do
  let p ← plan odb refs req
  let p ← withTags odb refs opts p
  let w ← buildPack hasher odb p opts.filter req.wants opts.thin
  .ok (p, w)

/-! ## Protocol v0 and v1 -/

/-- The deepen arguments of a request. -/
def Deepen.fromRequest (req : FetchRequest) : Deepen :=
  ⟨req.deepen, req.deepenSince, req.deepenNot, req.deepenRelative⟩

/-- What a request wants, given the haves found common. -/
def wantOf (req : FetchRequest) (haves : List ObjectId) : Want :=
  ⟨req.wants, haves, req.shallows, .fromRequest req⟩

/-- What a request asks the packer for. -/
def packOptions (req : FetchRequest) : PackOptions :=
  ⟨req.capabilities.has (str "include-tag"), req.filter, req.capabilities.has (str "thin-pack")⟩

/-- The shallow section a request is answered with first, if it deepens. -/
def shallowSection (odb : D) (refs : RefView) (req : FetchRequest) : Except Error Bytes :=
  if (Deepen.fromRequest req).isActive then do
    let p ← plan odb refs (wantOf req [])
    encodeShallowSection p
  else .ok []

/-- What a stateless request's have section comes to. -/
structure Rounds where
  neg : Negotiator
  done : Bool
  sawRound : Bool
  out : Bytes

/-- Reads the have section of a stateless request, up to done. -/
def statelessRounds (odb : D) (wants : List ObjectId) :
    List Packet → Rounds → Except Error Rounds
  | [], r => .ok r
  | .data d :: ps, r =>
    let line := trimTrailingNewline d
    match stripPrefix? (bytes "have ") line with
    | some rest => do
      let oid ← FetchRequest.idLine (algo odb) "have: non-utf8" rest
      let (neg, out) ← r.neg.have_ odb oid
      statelessRounds odb wants ps { r with neg := neg, sawRound := true, out := r.out ++ out }
    | none =>
      if line = bytes "done" then .ok { r with done := true }
      else statelessRounds odb wants ps r
  | .flush :: ps, r => do
    let (neg, out) ← r.neg.flush odb wants
    statelessRounds odb wants ps { r with neg := neg, sawRound := false, out := r.out ++ out }
  | _ :: ps, r => statelessRounds odb wants ps r

/-- The acknowledgments of a round that ends with the request. -/
def lastRound (odb : D) (wants : List ObjectId) (r : Rounds) : Except Error Bytes :=
  if r.sawRound then (r.neg.flush odb wants).map Prod.snd else .ok []

/-- The want section of a stateless request, up to its first flush, and the packets
after it. -/
def statelessRequest (odb : D) (request : Bytes) : Except Error (FetchRequest × List Packet) := do
  let packets ← decodeAll request
  let wantEnd := packets.findIdx (· == .flush) + 1
  let req ← FetchRequest.parse (algo odb) (packets.take wantEnd)
  if req.wants.isEmpty then .error (.protocol (str "upload-pack: request has no wants"))
  else .ok (req, packets.drop wantEnd)

/-- A stateless request up to its pack: the request, what is answered first, and the
objects of the pack if one is sent. -/
def statelessPack (hasher : Hasher) (odb : D) (refs : RefView) (request : Bytes) :
    Except Error (FetchRequest × Bytes × Option PackWriter) := do
  let (req, rest) ← statelessRequest odb request
  let out ← shallowSection odb refs req
  let r ← statelessRounds odb req.wants rest
    ⟨.new (.fromCaps req.capabilities), false, false, out⟩
  if !r.done then do
    let last ← lastRound odb req.wants r
    .ok (req, r.out ++ last, none)
  else do
    let last ← r.neg.done
    let (_, w) ← planPack hasher odb refs (wantOf req r.neg.common) (packOptions req)
    .ok (req, r.out ++ last, some w)

/-- Serves one stateless request; `finish` turns a writer into the bytes of its pack. -/
def serveStateless (finish : PackWriter → Except Error Bytes) (hasher : Hasher) (odb : D)
    (refs : RefView) (request : Bytes) : Except Error Bytes := do
  let (req, out, w) ← statelessPack hasher odb refs request
  match w with
  | none => .ok out
  | some w => do
    let pack ← finish w
    let body ← encodePackStream req.capabilities pack
    .ok (out ++ body)

/-! ### A conversation over a stream -/

/-- The limits on what a client may send before the pack. -/
def maxNegotiationBytes : Nat := 4 * 1024 * 1024
def maxNegotiationPackets : Nat := 100000

/-- The packets of a stream with their bytes, up to where it ends or is malformed: a
session takes either for a client that hung up. -/
def packetsOf : Nat → Bytes → List (Packet × Bytes)
  | 0, _ => []
  | fuel + 1, input =>
    match decode input with
    | .ok (some (p, n)) => (p, input.take n) :: packetsOf fuel (input.drop n)
    | _ => []

/-- Writes to the stream: the state is what has been written. -/
def writeAll (out : Bytes) : Exec Bytes Error Unit :=
  Exec.step fun written => (.ok (), written ++ out)

/-- Reads the want section through its flush; none when the client hangs up before. -/
def readWants : List (Packet × Bytes) → Bytes →
    Except Error (Option (Bytes × List (Packet × Bytes)))
  | [], _ => .ok none
  | (p, raw) :: rest, acc =>
    if acc.length + raw.length > maxNegotiationBytes then
      .error (.protocol (str "upload-pack: want section too large"))
    else if p = .flush then .ok (some (acc ++ raw, rest))
    else readWants rest (acc ++ raw)

/-- Answers haves as they arrive, up to done; none when the client hangs up before. -/
def haveRounds (odb : D) (wants : List ObjectId) : List (Packet × Bytes) → Nat → Nat → Negotiator →
    Exec Bytes Error (Option Negotiator)
  | [], _, _, _ => pure none
  | (p, raw) :: rest, packets, size, neg =>
    if packets + 1 > maxNegotiationPackets || size + raw.length > maxNegotiationBytes then
      Exec.throw (.protocol (str "upload-pack: negotiation too long"))
    else match p with
    | .data d =>
      let line := trimTrailingNewline d
      match stripPrefix? (bytes "have ") line with
      | some hex => do
        let oid ← Exec.ofExcept (FetchRequest.idLine (algo odb) "have: non-utf8" hex)
        let (neg, out) ← Exec.ofExcept (neg.have_ odb oid)
        writeAll out
        haveRounds odb wants rest (packets + 1) (size + raw.length) neg
      | none =>
        if line = bytes "done" then do
          let out ← Exec.ofExcept neg.done
          writeAll out
          pure (some neg)
        else Exec.throw (.protocol
          (str "upload-pack: unexpected line " ++ debugStr (fromUtf8Lossy line)))
    | .flush => do
      let (neg, out) ← Exec.ofExcept (neg.flush odb wants)
      writeAll out
      haveRounds odb wants rest (packets + 1) (size + raw.length) neg
    | _ => haveRounds odb wants rest (packets + 1) (size + raw.length) neg

/-- A conversation up to its pack; none when the client wants nothing or hangs up. -/
def sessionPack (hasher : Hasher) (odb : D) (refs : RefView) (input : Bytes) :
    Exec Bytes Error (Option (FetchRequest × PackWriter)) := do
  match ← Exec.ofExcept (readWants (packetsOf (input.length + 1) input) []) with
  | none => pure none
  | some (wantBytes, rest) => do
    let packets ← Exec.ofExcept (decodeAll wantBytes)
    let req ← Exec.ofExcept (FetchRequest.parse (algo odb) packets)
    if req.wants.isEmpty then pure none
    else do
      let out ← Exec.ofExcept (shallowSection odb refs req)
      writeAll out
      match ← haveRounds odb req.wants rest 0 0 (.new (.fromCaps req.capabilities)) with
      | none => pure none
      | some neg => do
        let (_, w) ← Exec.ofExcept
          (planPack hasher odb refs (wantOf req neg.common) (packOptions req))
        pure (some (req, w))

/-- Serves a whole conversation over a stream. -/
def serveSession (finish : PackWriter → Except Error Bytes) (hasher : Hasher) (odb : D)
    (refs : RefView) (input : Bytes) : Exec Bytes Error Unit := do
  match ← sessionPack hasher odb refs input with
  | none => pure ()
  | some (req, w) => do
    let pack ← Exec.ofExcept (finish w)
    let body ← Exec.ofExcept (encodePackStream req.capabilities pack)
    writeAll body

/-! ## Protocol v2 -/

/-- The refs a fetch wants by name, resolved; a name of no ref is passed over. -/
def wantedRefs (refs : RefAccess) (names : List Str) : List (ObjectId × Str) :=
  names.filterMap fun name => (refs.resolve name).toOption.map fun id => (id, name)

/-- The arguments of a fetch, the refs wanted by name, and everything wanted. -/
def v2Wants (odb : D) (refs : RefAccess) (command : V2.Command) :
    Except Error (V2.FetchArgs × List (ObjectId × Str) × List ObjectId) := do
  let args ← V2.FetchArgs.parse (algo odb) command
  let named := wantedRefs refs args.wantRefs
  let wants := args.wants ++ named.map Prod.fst
  if wants.isEmpty then .error (.protocol (str "v2 fetch: request has no wants"))
  else .ok (args, named, wants)

/-- The acknowledgments of a round without done, and whether the pack follows. -/
def v2Acknowledge (odb : D) (args : V2.FetchArgs) (wants : List ObjectId) :
    Except Error (Bytes × Bool) :=
  if args.done then .ok ([], true)
  else do
    let common := args.haves.filter (contains odb)
    let acks ← ReportStatus.encodeLines (str "acknowledgments\n" ::
      (if common.isEmpty then [str "NAK\n"] else []) ++ idLines (str "ACK ") common)
    if ← okToGiveUp odb wants (BTreeSet.ofList common) then do
      let ready ← encodeLine (str "ready\n")
      .ok (acks ++ ready ++ delimPkt, true)
    else .ok (acks ++ flushPkt, false)

/-- A fetch command up to its pack: what is answered first, and the plan and the objects
of the pack if one is sent. -/
def v2FetchPack (hasher : Hasher) (odb : D) (refs : RefAccess) (command : V2.Command) :
    Except Error (Bytes × List (ObjectId × Str) × Option (Plan × PackWriter)) := do
  let (args, named, wants) ← v2Wants odb refs command
  let (out, ready) ← v2Acknowledge odb args wants
  if !ready then .ok (out, named, none)
  else do
    let pw ← planPack hasher odb refs.view
      ⟨wants, args.haves, args.shallows,
        ⟨args.deepen, args.deepenSince, args.deepenNot, args.deepenRelative⟩⟩
      ⟨command.hasArg (str "include-tag"), args.filter, args.thinPack⟩
    .ok (out, named, some pw)

/-- Serves a fetch command. -/
def v2Fetch (finish : PackWriter → Except Error Bytes) (hasher : Hasher) (odb : D)
    (refs : RefAccess) (command : V2.Command) : Except Error Bytes := do
  let (out, named, pw) ← v2FetchPack hasher odb refs command
  match pw with
  | none => .ok out
  | some (p, w) => do
    let pack ← finish w
    let sections ← V2.encodeFetchSections none p.shallow p.unshallow named [] pack
    .ok (out ++ sections)

/-! ## What is sent -/

/-- The repository answers a request that wants `wants` with a pack of the objects of
`w`, through one of its frontends. -/
inductive Sends (hasher : Hasher) (odb : D) (refs : RefAccess) : List ObjectId → PackWriter → Prop
  | stateless {request req out w}
      (h : statelessPack hasher odb refs.view request = .ok (req, out, some w)) :
      Sends hasher odb refs req.wants w
  | session {input req w written written'}
      (h : sessionPack hasher odb refs.view input written = some (.ok (some (req, w)), written')) :
      Sends hasher odb refs req.wants w
  | v2 {command args named wants out p w} (hw : v2Wants odb refs command = .ok (args, named, wants))
      (h : v2FetchPack hasher odb refs command = .ok (out, named, some (p, w))) :
      Sends hasher odb refs wants w

/-- The id is that of HEAD or of a ref an advertisement lists. -/
def Advertised (refs : RefAccess) (id : ObjectId) : Prop :=
  ∃ listed, advertisedRefs refs = .ok listed ∧ ∃ name, (name, id) ∈ listed

variable {hasher : Hasher} {odb : D} {refs : RefAccess}

theorem tagChain_reached {n : Nat} {cur target : ObjectId} {chain chain' : List ObjectId}
    (h : tagChain odb n cur chain = .ok (chain', target)) :
    ∀ t ∈ chain', t ∈ chain ∨ ReflTransGen (Refers (graph odb)) cur t := by
  induction n generalizing cur chain with
  | zero =>
      cases h
      exact fun t ht => Or.inl ht
  | succ n ih =>
      rw [tagChain] at h
      split at h
      · rename_i payload hr
        obtain ⟨tag, htag, h⟩ := except_bind_ok.mp h
        have hstep : Refers (graph odb) cur tag.object :=
          TagRef.refers ⟨tag, readPresent_tag (readPresent_some.mpr hr) htag, rfl⟩
        intro t ht
        rcases ih h t ht with hin | hpath
        · rcases List.mem_append.mp hin with hin | hin
          · exact Or.inl hin
          · obtain rfl := List.mem_singleton.mp hin
            exact Or.inr .refl
        · exact Or.inr (.head hstep hpath)
      · cases h
        exact fun t ht => Or.inl ht

/-- Including tags adds only what the tags reach. -/
theorem includeTags_reached {tags : List ObjectId} {p p' : Plan}
    (h : includeTags odb tags p = .ok p') {x : ObjectId} (hx : x ∈ p'.objects) :
    x ∈ p.objects ∨ ∃ tag ∈ tags, ReflTransGen (Refers (graph odb)) tag x := by
  induction tags generalizing p with
  | nil =>
      cases h
      exact Or.inl hx
  | cons tag tags ih =>
      rw [includeTags] at h
      obtain ⟨⟨chain, target⟩, hchain, h⟩ := except_bind_ok.mp h
      simp only at h
      split at h
      · rcases ih h with hin | ⟨tag', htag', hpath⟩
        · rcases BTreeSet.mem_extend.mp hin with hin | hin
          · have hmem := (List.mem_filter.mp hin).1
            rcases tagChain_reached hchain x hmem with hnil | hpath
            · cases hnil
            · exact Or.inr ⟨tag, List.mem_cons_self .., hpath⟩
          · exact Or.inl hin
        · exact Or.inr ⟨tag', List.mem_cons_of_mem _ htag', hpath⟩
      · rcases ih h with hin | ⟨tag', htag', hpath⟩
        · exact Or.inl hin
        · exact Or.inr ⟨tag', List.mem_cons_of_mem _ htag', hpath⟩

theorem addObjects_read {filter : ObjectFilter} {wanted : BTreeSet ObjectId} {ids : List ObjectId}
    {w w' : PackWriter} (h : addObjects odb filter wanted ids w = .ok w') {e : PackEntry}
    (he : e ∈ w'.entries) :
    e ∈ w.entries ∨ ∃ id ∈ ids, read odb id = .ok (e.ty, e.payload) := by
  induction ids generalizing w with
  | nil =>
      cases h
      exact Or.inl he
  | cons id ids ih =>
      rw [addObjects] at h
      obtain ⟨⟨ty, payload⟩, hr, h⟩ := except_bind_ok.mp h
      simp only at h
      split at h
      · rcases ih h with hin | ⟨id', hid', hread⟩
        · exact Or.inl hin
        · exact Or.inr ⟨id', List.mem_cons_of_mem _ hid', hread⟩
      · rcases ih h with hin | ⟨id', hid', hread⟩
        · rcases PackWriter.mem_addEntry hin with hin | rfl
          · exact Or.inl hin
          · exact Or.inr ⟨id, List.mem_cons_self .., hr⟩
        · exact Or.inr ⟨id', List.mem_cons_of_mem _ hid', hread⟩

theorem addBases_entries (ids : List ObjectId) (w : PackWriter) :
    (addBases odb ids w).entries = w.entries := by
  induction ids generalizing w with
  | nil => rfl
  | cons id ids ih =>
      rw [addBases]
      split
      · rw [ih]
        rfl
      · exact ih w

/-- What a pack holds was read from the objects of its plan. -/
theorem buildPack_read {p : Plan} {filter : Option Str} {wanted : List ObjectId} {thin : Bool}
    {w : PackWriter} (h : buildPack hasher odb p filter wanted thin = .ok w) {e : PackEntry}
    (he : e ∈ w.entries) : ∃ id ∈ p.objects, read odb id = .ok (e.ty, e.payload) := by
  obtain ⟨w₀, hw₀, h⟩ := except_bind_ok.mp h
  cases h
  have he₀ : e ∈ w₀.entries := by
    split at he
    · rwa [addBases_entries] at he
    · exact he
  rcases addObjects_read hw₀ he₀ with hnil | ⟨id, hid, hread⟩
  · cases hnil
  · exact ⟨id, BTreeSet.mem_toList.mp hid, hread⟩

/-- What is planned and packed is reached from the wants, or from a tag included. -/
theorem planPack_reached {view : RefView} {req : Want} {opts : PackOptions} {p : Plan}
    {w : PackWriter} (h : planPack hasher odb view req opts = .ok (p, w)) {e : PackEntry}
    (he : e ∈ w.entries) : ∃ id, read odb id = .ok (e.ty, e.payload) ∧
      ∃ root, (root ∈ req.wants ∨ root ∈ view.tags) ∧
        ReflTransGen (Refers (graph odb)) root id := by
  obtain ⟨p₀, hp₀, h⟩ := except_bind_ok.mp h
  obtain ⟨p₁, hp₁, h⟩ := except_bind_ok.mp h
  obtain ⟨w₁, hw₁, h⟩ := except_bind_ok.mp h
  cases h
  obtain ⟨id, hid, hread⟩ := buildPack_read hw₁ he
  refine ⟨id, hread, ?_⟩
  have hplan : id ∈ p₀.objects ∨ ∃ tag ∈ view.tags, ReflTransGen (Refers (graph odb)) tag id := by
    rw [withTags] at hp₁
    split at hp₁
    · exact includeTags_reached hp₁ hid
    · cases hp₁
      exact Or.inl hid
  rcases hplan with hin | ⟨tag, htag, hpath⟩
  · obtain ⟨want, hwant, hpath⟩ := plan_reached hp₀ hin
    exact ⟨want, Or.inl hwant, hpath⟩
  · exact ⟨tag, Or.inr htag, hpath⟩

/-- Whatever the frontend, a pack is planned for the wants of the request. -/
theorem Sends.planned {wants : List ObjectId} {w : PackWriter} (h : Sends hasher odb refs wants w) :
    ∃ req opts p, req.wants = wants ∧ planPack hasher odb refs.view req opts = .ok (p, w) := by
  cases h with
  | @stateless request req out _ h =>
      obtain ⟨⟨req', rest⟩, -, h⟩ := except_bind_ok.mp h
      obtain ⟨shallow, -, h⟩ := except_bind_ok.mp h
      obtain ⟨r, -, h⟩ := except_bind_ok.mp h
      split at h
      · obtain ⟨last, -, h⟩ := except_bind_ok.mp h
        cases h
      · obtain ⟨last, -, h⟩ := except_bind_ok.mp h
        obtain ⟨⟨p, w'⟩, hp, h⟩ := except_bind_ok.mp h
        cases h
        exact ⟨_, _, p, rfl, hp⟩
  | @session input req _ written written' h =>
      obtain ⟨r, s₁, -, h⟩ := Exec.bind_ok.mp h
      cases r with
      | none => cases h
      | some r =>
          obtain ⟨packets, s₂, -, h⟩ := Exec.bind_ok.mp h
          obtain ⟨req', s₃, -, h⟩ := Exec.bind_ok.mp h
          split at h
          · cases h
          obtain ⟨out, s₄, -, h⟩ := Exec.bind_ok.mp h
          obtain ⟨-, s₅, -, h⟩ := Exec.bind_ok.mp h
          obtain ⟨neg, s₆, -, h⟩ := Exec.bind_ok.mp h
          cases neg with
          | none => cases h
          | some neg =>
              obtain ⟨⟨p, w'⟩, s₇, hp, h⟩ := Exec.bind_ok.mp h
              cases h
              rw [Exec.ofExcept_apply] at hp
              obtain ⟨hp, -⟩ := Prod.mk.inj (Option.some.inj hp)
              exact ⟨_, _, p, rfl, hp⟩
  | @v2 command args named _ out p _ hw h =>
      obtain ⟨⟨args', named', wants'⟩, hw', h⟩ := except_bind_ok.mp h
      rw [hw] at hw'
      cases hw'
      obtain ⟨⟨out', ready⟩, -, h⟩ := except_bind_ok.mp h
      simp only at h
      split at h
      · cases h
      · obtain ⟨pw, hp, h⟩ := except_bind_ok.mp h
        cases h
        exact ⟨_, _, p, rfl, hp⟩

theorem advertised_of_tag {tag : ObjectId} (h : tag ∈ refs.tags) : Advertised refs tag := by
  rw [RefAccess.tags] at h
  split at h
  · rename_i listed hlisted
    obtain ⟨⟨name, id⟩, hb, rfl⟩ := List.mem_map.mp h
    refine ⟨_, except_map_ok.mpr ⟨listed, hlisted, rfl⟩, name, List.mem_append_right _ ?_⟩
    exact (List.mem_filter.mp hb).1
  · cases h

/-- **A pack holds what the wants reach, and tags included with it**; so when every want
is reached from HEAD or a listed ref, so is everything in the pack. -/
theorem sends_reached {wants : List ObjectId} {w : PackWriter} (h : Sends hasher odb refs wants w) :
    (∀ e ∈ w.entries, ∃ id, read odb id = .ok (e.ty, e.payload) ∧
      ∃ root, (root ∈ wants ∨ root ∈ refs.tags) ∧ ReflTransGen (Refers (graph odb)) root id) ∧
    ((∀ want ∈ wants, ∃ root, Advertised refs root ∧
        ReflTransGen (Refers (graph odb)) root want) →
      ∀ e ∈ w.entries, ∃ id, read odb id = .ok (e.ty, e.payload) ∧
        ∃ root, Advertised refs root ∧ ReflTransGen (Refers (graph odb)) root id) := by
  obtain ⟨req, opts, p, rfl, hp⟩ := h.planned
  have hall : ∀ e ∈ w.entries, ∃ id, read odb id = .ok (e.ty, e.payload) ∧
      ∃ root, (root ∈ req.wants ∨ root ∈ refs.tags) ∧
        ReflTransGen (Refers (graph odb)) root id := fun e he => planPack_reached hp he
  refine ⟨hall, fun hwants e he => ?_⟩
  obtain ⟨id, hread, root, hroot, hpath⟩ := hall e he
  rcases hroot with hwant | htag
  · obtain ⟨root', hroot', hpath'⟩ := hwants root hwant
    exact ⟨id, hread, root', hroot', hpath'.trans hpath⟩
  · exact ⟨id, hread, root, advertised_of_tag htag, hpath⟩

/-! ## Fetches from the small server -/

namespace FetchSample

/-- The refs of the server: HEAD and the branch `main` at `recent`. -/
def mainRefs : RefAccess where
  lookup name :=
    if name = str "HEAD" then .ok (.symbolic (str "refs/heads/main"))
    else if name = str "refs/heads/main" then .ok (.direct recent)
    else .error (.notFound (.reference name))
  resolve name :=
    if name = str "HEAD" ∨ name = str "refs/heads/main" then .ok recent
    else .error (.notFound (.reference name))
  list := .ok (BTreeMap.ofList [(str "refs/heads/main", recent)])

/-- Whatever is advertised is `recent`. -/
theorem advertised_recent {id : ObjectId} (h : Advertised mainRefs id) : id = recent := by
  obtain ⟨listed, hlisted, name, hmem⟩ := h
  obtain ⟨refs, hrefs, rfl⟩ := except_map_ok.mp hlisted
  cases hrefs
  rcases List.mem_append.mp hmem with hmem | hmem
  · have hhead : (mainRefs.resolve (str "HEAD")).toOption = some recent := by decide
    rw [hhead] at hmem
    exact (Prod.mk.inj (List.mem_singleton.mp hmem)).2
  · have hlist : (BTreeMap.ofList [(str "refs/heads/main", recent)]).toList =
        [(str "refs/heads/main", recent)] := rfl
    rw [hlist] at hmem
    exact (Prod.mk.inj (List.mem_singleton.mp hmem)).2

/-- The pack of a stateless request, through its entries. -/
theorem exists_sends (wants : List ObjectId) (entries : List PackEntry) {r : Bytes}
    (h : (statelessPack .sha store mainRefs.view r).toOption.bind (fun sent =>
      sent.2.2.map fun w => (sent.1.wants, w.entries)) = some (wants, entries)) :
    ∃ w, Sends .sha store mainRefs wants w ∧ w.entries = entries := by
  obtain ⟨⟨req, out, w⟩, hr, hw⟩ := Option.bind_eq_some_iff.mp h
  obtain ⟨w, rfl, hfields⟩ := Option.map_eq_some_iff.mp hw
  cases hfields
  exact ⟨w, .stateless (toOption_eq_some.mp hr), rfl⟩

/-- A pack entry of an object of the store. -/
def entryOf (id : ObjectId) : PackEntry :=
  match store.objects.get? id with
  | some (ty, payload) => ⟨id, ty, payload⟩
  | none => ⟨id, .blob, []⟩

/-- A fetch of `recent` sends what is reached from the branch. -/
theorem fetch_recent : ∃ w, Sends .sha store mainRefs [recent] w ∧
    w.entries = [entryOf emptyTree, entryOf recent] ∧
    ∀ e ∈ w.entries, ∃ id, read store id = .ok (e.ty, e.payload) ∧
      ∃ root, Advertised mainRefs root ∧ ReflTransGen (Refers (graph store)) root id := by
  obtain ⟨w, hw, hentries⟩ := exists_sends [recent] [entryOf emptyTree, entryOf recent]
    (r := bytes "0032want 70026b697166b1dcda95ab765e4ef049e459b135\n00000009done\n")
      (by decide +kernel)
  refine ⟨w, hw, hentries, (sends_reached hw).2 fun want hwant => ?_⟩
  obtain rfl := List.mem_singleton.mp hwant
  exact ⟨recent, ⟨_, rfl, str "HEAD", List.mem_append_left _ (by decide)⟩, .refl⟩

/-- A fetch of `old`, which no ref reaches, sends it. -/
theorem fetch_unreachable : ∃ w, Sends .sha store mainRefs [old] w ∧ ∃ e ∈ w.entries,
    ∀ id, read store id = .ok (e.ty, e.payload) → ∀ root, Advertised mainRefs root →
      ¬ ReflTransGen (Refers (graph store)) root id := by
  obtain ⟨w, hw, hentries⟩ := exists_sends [old] [entryOf emptyTree, entryOf first, entryOf old]
    (r := bytes "0032want 80b5dbf06ccc331bce8ccb2f88f38d2f6564feb7\n00000009done\n")
      (by decide +kernel)
  refine ⟨w, hw, entryOf old, by rw [hentries]; simp, fun id hread root hroot hpath => ?_⟩
  obtain rfl := advertised_recent hroot
  have hrecent : readCommit store recent = .ok (some (commitAt [] 200 110)) := by decide
  have htree : objectChildren store emptyTree = .ok [] := by decide +kernel
  have hclosed : id = recent ∨ id = emptyTree := by
    clear hread
    induction hpath with
    | refl => exact Or.inl rfl
    | tail _ hab ih =>
        rcases ih with rfl | rfl
        · obtain ⟨o, ho, hb⟩ := hab
          rw [readCommit_some.mp hrecent] at ho
          cases ho
          exact Or.inr (List.mem_singleton.mp hb)
        · obtain ⟨ks, hks, hb⟩ := mem_objectChildren.mpr hab
          rw [htree] at hks
          cases hks
          cases hb
  rcases hclosed with rfl | rfl
  · exact absurd hread (by decide)
  · exact absurd hread (by decide)

end FetchSample

end Puregit.Server
