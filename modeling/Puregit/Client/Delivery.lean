import Puregit.Client.Push
import Puregit.Odb.Growth
import Puregit.Refs.List
import Puregit.Server.Connectivity

/-! # What pushes leave on a remote

Clients push to one remote, each from a store of its own.  A client reads what the remote
advertises, sends a request, and the remote serves it when its turn comes; in between it may serve
others.

`World.run_whole` says that this goes well however the clients take turns: at any time the objects
that the refs of the remote lead to are there, and so are those of every push that was reported ok.
`World.serve_delivers` says what a report of ok means when it is made: the ref is at the tip.

No two of the objects in play have the same id: a `History` is the objects there are, and the stores
hold some of them each.  The store of the remote meets the laws of `ContentAddressed` for them; one
on disk does where it serves some of them, `History.Loose.contentAddressed`. -/
namespace Puregit.Client
open ObjectDatabase ObjectGraph Relation Server

/-! ## The objects there are -/

/-- The objects there are, each under its id. -/
structure History (hasher : Hasher) (algo : HashAlgo) where
  object : ObjectId → Option (ObjectType × Bytes)
  hash : ∀ {id ty payload}, object id = some (ty, payload) → hashObject hasher algo ty payload = id
  length_lt : ∀ {id ty payload}, object id = some (ty, payload) → payload.length < 2 ^ 64
  /-- A pack counts its objects with 32 bits. -/
  count_lt : ∀ ids : List ObjectId, ids.Nodup → (∀ id ∈ ids, (object id).isSome = true) →
    ids.length < 2 ^ 32

section
variable {hasher : Hasher} {hashAlgo : HashAlgo} {history : History hasher hashAlgo}
variable {C D : Type} [ObjectDatabase C] [ObjectDatabase D] {client : C} {odb odb' : D}

/-- A store that holds some of the objects, and no others. -/
structure Partakes (history : History hasher hashAlgo) (odb : D) : Prop where
  algo_eq : algo odb = hashAlgo
  read : ∀ {id r}, ObjectDatabase.read odb id = .ok r → history.object id = some r

theorem Partakes.sound (h : Partakes history odb) : Sound hasher odb where
  id id ty payload hread := by
    rw [h.algo_eq]
    exact history.hash (h.read hread)
  length id ty payload hread := history.length_lt (h.read hread)

theorem Partakes.same (h : Partakes history client) (h' : Partakes history odb) {id : ObjectId}
    {r r' : ObjectType × Bytes} (hr : ObjectDatabase.read client id = .ok r)
    (hr' : ObjectDatabase.read odb id = .ok r') :
    r = r' :=
  Option.some.inj ((h.read hr).symm.trans (h'.read hr'))

/-- What is an object of one store is the same object of another that has it. -/
theorem Partakes.graph_eq (h : Partakes history client) (h' : Partakes history odb)
    {id : ObjectId} {o : Object} {r : ObjectType × Bytes} (ho : graph client id = some o)
    (hr : ObjectDatabase.read odb id = .ok r) :
    graph odb id = some o := by
  obtain ⟨ty, payload, hread, hparse⟩ := graph_eq_some.mp ho
  cases h.same h' hread hr
  refine graph_eq_some.mpr ⟨ty, payload, hr, ?_⟩
  rw [h'.algo_eq, ← h.algo_eq]
  exact hparse

theorem exists_read_of_holds {id : ObjectId} (h : Holds (graph odb) id) :
    ∃ r, ObjectDatabase.read odb id = .ok r := by
  obtain ⟨o, ho⟩ := Option.isSome_iff_exists.mp h
  obtain ⟨ty, payload, hread, -⟩ := graph_eq_some.mp ho
  exact ⟨_, hread⟩

/-! ## A tip with what it leads to -/

/-- What an id leads to for a client, it leads to on a remote where it is whole. -/
theorem reached_of_whole (hclient : Partakes history client) (hodb : Partakes history odb)
    {v x : ObjectId} (hv : Whole odb v) (hx : ReflTransGen (Refers (graph client)) v x) :
    ReflTransGen (Refers (graph odb)) v x := by
  induction hx with
  | refl => exact .refl
  | tail _ hstep ih =>
    obtain ⟨o, ho, hmem⟩ := hstep
    obtain ⟨r, hr⟩ := exists_read_of_holds (hv _ ih)
    exact ih.tail ⟨o, hclient.graph_eq hodb ho hr, hmem⟩

/-- **A remote that has what a pack carries has the whole tip**, if it had what the pack leaves
out. -/
theorem whole_of_carries (hclient : Partakes history client) (hodb : Partakes history odb)
    {new : ObjectId} {haves : List ObjectId} {w : PackWriter}
    (hw : Carries hasher client new haves w) (hhaves : ∀ v ∈ haves, Whole odb v)
    (hentries : ∀ e ∈ w.entries, ∃ r, ObjectDatabase.read odb e.id = .ok r) :
    Whole odb new := by
  -- what is reached from the tip is reached in the store of the client, or from what the remote had
  have hstep : ∀ x, ReflTransGen (Refers (graph client)) new x → Holds (graph odb) x := by
    intro x hx
    rcases hw.whole x hx with ⟨⟨e, he, rfl⟩, hholds⟩ | ⟨v, hv, hvx⟩
    · obtain ⟨o, ho⟩ := Option.isSome_iff_exists.mp hholds
      obtain ⟨r, hr⟩ := hentries e he
      exact Option.isSome_iff_exists.mpr ⟨o, hclient.graph_eq hodb ho hr⟩
    · exact hhaves v hv x (reached_of_whole hclient hodb (hhaves v hv) hvx)
  intro x hx
  have hreached : ReflTransGen (Refers (graph client)) new x ∨
      ∃ v ∈ haves, ReflTransGen (Refers (graph odb)) v x := by
    induction hx with
    | refl => exact Or.inl .refl
    | tail _ hlast ih =>
      obtain ⟨o, ho, hmem⟩ := hlast
      rcases ih with hclientReached | ⟨v, hv, hvx⟩
      · rcases hw.whole _ hclientReached with ⟨⟨e, he, rfl⟩, hholds⟩ | ⟨v, hv, hvx⟩
        · obtain ⟨o', ho'⟩ := Option.isSome_iff_exists.mp hholds
          obtain ⟨r, hr⟩ := hentries e he
          cases ho.symm.trans (hclient.graph_eq hodb ho' hr)
          exact Or.inl (hclientReached.tail ⟨o, ho', hmem⟩)
        · exact Or.inr ⟨v, hv, (reached_of_whole hclient hodb (hhaves v hv) hvx).tail ⟨o, ho, hmem⟩⟩
      · exact Or.inr ⟨v, hv, hvx.tail ⟨o, ho, hmem⟩⟩
  rcases hreached with hx | ⟨v, hv, hvx⟩
  · exact hstep x hx
  · exact hhaves v hv x hvx

/-! ## Objects are written -/

/-- An object with this content is one of them. -/
def History.Has (history : History hasher hashAlgo) (ty : ObjectType) (payload : Bytes) : Prop :=
  history.object (hashObject hasher hashAlgo ty payload) = some (ty, payload)

theorem History.has_of_object {id : ObjectId} {ty : ObjectType} {payload : Bytes}
    (h : history.object id = some (ty, payload)) : history.Has ty payload := by
  rw [History.Has, history.hash h]
  exact h

/-- Each of the objects can be kept loose. -/
def History.Loose (history : History hasher hashAlgo) : Prop :=
  ∀ {id ty payload}, history.object id = some (ty, payload) →
    (serializeLoose ty payload).length ≤ 2 ^ 30

/-- **A store on disk takes all of them**, where it serves some. -/
theorem History.Loose.contentAddressed {z : Zlib} (h : history.Loose) (hz : z.Exact)
    (hcap : z.CapsOnly) :
    ContentAddressed hasher hashAlgo (CombinedOdb.Stocked z hasher hashAlgo history.object)
      history.Has :=
  (CombinedOdb.contentAddressed hz hcap).of_fits fun _ _ hobject => ⟨hobject, h hobject⟩

/-- A database that partakes, in a state in which it takes objects. -/
structure Stores (history : History hasher hashAlgo) (Held : D → Prop) (odb : D) : Prop extends
    Partakes history odb where
  held : Held odb

variable {Held : D → Prop}

theorem Stores.write (laws : ContentAddressed hasher hashAlgo Held history.Has)
    (h : Stores history Held odb) {ty : ObjectType} {payload : Bytes}
    (hobject : history.Has ty payload) :
    Stores history Held (write odb ty payload).2 where
  algo_eq := (laws.algo_write h.held hobject).trans h.algo_eq
  held := laws.held_write h.held hobject
  read {id r} hr := by
    rcases laws.added h.held hobject hr with hr | ⟨rfl, rfl⟩
    · exact h.read hr
    · exact hobject

/-- Objects of the history that are written are there afterwards. -/
theorem Stores.writeObjects (laws : ContentAddressed hasher hashAlgo Held history.Has) :
    ∀ {objects : List (ObjectId × ObjectType × Bytes)} {odb : D}, Stores history Held odb →
    (∀ object ∈ objects, history.object object.1 = some object.2) →
    Stores history Held (Server.writeObjects odb objects).2 ∧
      ∀ ids, (Server.writeObjects odb objects).1 = .ok ids →
        ∀ object ∈ objects, ∃ r, ObjectDatabase.read (Server.writeObjects odb objects).2
          object.1 = .ok r := by
  intro objects
  induction objects with
  | nil => exact fun h _ => ⟨h, fun ids _ object hobject => absurd hobject List.not_mem_nil⟩
  | cons object objects ih =>
    intro odb h hobjects
    obtain ⟨id, ty, payload⟩ := object
    obtain ⟨hobject, hrest⟩ := List.forall_mem_cons.mp hobjects
    have hhas := history.has_of_object hobject
    have hwrite : Stores history Held (ObjectDatabase.write odb ty payload).2 := h.write laws hhas
    rw [Server.writeObjects]
    cases hw : ObjectDatabase.write odb ty payload with
    | mk result odb₁ =>
      have hwritten := fun id => @laws.written odb ty payload id h.held hhas
      rw [hw] at hwrite hwritten
      cases result with
      | error e => exact ⟨hwrite, fun ids hids => by cases hids⟩
      | ok id' =>
        obtain ⟨hstores, hall⟩ := ih hwrite hrest
        obtain ⟨-, -, hkept⟩ := keeps_writeObjects laws.toKeepsObjects hwrite.held fun o ho =>
          history.has_of_object (hrest o ho)
        refine ⟨hstores, fun ids hids object hmem => ?_⟩
        obtain ⟨rest, hids', -⟩ := except_map_ok.mp hids
        rcases List.mem_cons.mp hmem with rfl | hmem
        · obtain ⟨hid', r, hr⟩ := hwritten _ rfl
          rw [history.hash hobject] at hid'
          subst hid'
          exact ⟨r, hkept _ _ hr⟩
        · exact hall rest hids' object hmem

/-! ## A request is read -/

theorem splitAtFlushFrom_encoded (rest : Bytes) :
    ∀ {lines : List Str} {out : Bytes} (pre : Bytes) {fuel : Nat},
    ReportStatus.encodeLines lines = .ok out → lines.length < fuel →
    splitAtFlushFrom (pre ++ (out ++ (PktLine.flushPkt ++ rest))) fuel pre.length =
      .ok (pre.length + (out.length + 4)) := by
  intro lines
  induction lines with
  | nil =>
    intro out pre fuel h hfuel
    cases h
    obtain ⟨fuel, rfl⟩ := Nat.exists_eq_add_one_of_ne_zero (Nat.ne_of_gt hfuel)
    have hflush : PktLine.decode (PktLine.flushPkt ++ rest) = .ok (some (.flush, 4)) :=
      PktLine.decode_encode (p := .flush) rfl rest
    rw [splitAtFlushFrom, List.drop_left, List.nil_append, hflush]
    rfl
  | cons l ls ih =>
    intro out pre fuel h hfuel
    obtain ⟨p, hp, h⟩ := except_bind_ok.mp h
    obtain ⟨ps, hps, h⟩ := except_bind_ok.mp h
    cases h
    obtain ⟨fuel, rfl⟩ := Nat.exists_eq_add_one_of_ne_zero
      (Nat.ne_of_gt (Nat.lt_of_le_of_lt (Nat.zero_le _) hfuel))
    have hline : PktLine.decode (p ++ (ps ++ (PktLine.flushPkt ++ rest))) =
        .ok (some (linePacket l, p.length)) :=
      PktLine.decode_encode (p := linePacket l) hp _
    rw [splitAtFlushFrom, List.drop_left, List.append_assoc, hline]
    have hnext := ih (pre ++ p) hps (Nat.lt_of_succ_lt_succ hfuel)
    rw [List.append_assoc, List.length_append] at hnext
    show splitAtFlushFrom _ fuel (pre.length + p.length) = _
    rw [hnext, List.length_append]
    congr 1
    omega

theorem length_le_encodeLines :
    ∀ {lines : List Str} {out : Bytes}, ReportStatus.encodeLines lines = .ok out →
    lines.length ≤ out.length := by
  intro lines
  induction lines with
  | nil => exact fun _ => Nat.zero_le _
  | cons l ls ih =>
    intro out h
    obtain ⟨p, hp, h⟩ := except_bind_ok.mp h
    obtain ⟨ps, hps, h⟩ := except_bind_ok.mp h
    cases h
    have hpos : 0 < p.length := by
      have hline := PktLine.decode_encode (p := linePacket l) hp []
      exact Nat.lt_of_lt_of_le (by decide) (PktLine.decode_consumed hline).1
    have hrest := ih hps
    rw [List.length_append, List.length_cons]
    omega

/-- The commands of a push are read from its request, and what follows them is the pack. -/
theorem readPush_request {hashAlgo : HashAlgo} {req : PushRequest} {commands : Bytes}
    (h : req.encode = .ok commands) (pack : Bytes) : readPush hashAlgo (commands ++ pack) =
      ((PktLine.decodeAll commands >>= PushRequest.parse hashAlgo).map fun req => (req, pack)) := by
  rw [PushRequest.encode] at h
  split at h
  · cases h
  obtain ⟨lines, hlines, h⟩ := except_bind_ok.mp h
  cases h
  have hlen := length_le_encodeLines hlines
  have hsplit : splitAtFlush (lines ++ PktLine.flushPkt ++ pack) =
      .ok (lines ++ PktLine.flushPkt, pack) := by
    have hfuel : (req.texts.map (· ++ ['\n'])).length <
        (lines ++ PktLine.flushPkt ++ pack).length + 1 := by
      refine Nat.lt_succ_of_le (hlen.trans ?_)
      rw [List.length_append, List.length_append, Nat.add_assoc]
      exact Nat.le_add_right _ _
    have hfrom := splitAtFlushFrom_encoded pack [] hlines hfuel
    rw [List.nil_append, ← List.append_assoc, List.length_nil, Nat.zero_add] at hfrom
    have hflush : PktLine.flushPkt.length = 4 := by decide
    have hlength : lines.length + 4 = (lines ++ PktLine.flushPkt).length := by
      rw [List.length_append, hflush]
    rw [splitAtFlush, hfrom, hlength, Except.map, List.take_left, List.drop_left]
  rw [readPush, hsplit, except_ok_bind]
  show (PktLine.decodeAll (lines ++ PktLine.flushPkt) >>= fun packets =>
    PushRequest.parse hashAlgo packets >>= fun req => Except.ok (req, pack)) = _
  cases PktLine.decodeAll (lines ++ PktLine.flushPkt) with
  | error e => rfl
  | ok packets => exact except_bind_pure

theorem space_notMem_of_isRefName {name : Str} (h : RefStore.IsRefName name) : ' ' ∉ name := by
  rcases h with h | rfl
  · intro hc
    have hforbidden := not_forbidden_of_isValidRefName h hc
    revert hforbidden
    decide
  · decide

/-- A remote that reads the request of a push reads its one command. -/
theorem readPush_pushCommand {advert : RefAdvertisement} {old new : ObjectId} {name : Str}
    {commands pack pack' : Bytes} {req : PushRequest} (hname : RefStore.IsRefName name)
    (h : (pushCommand hashAlgo advert old new name).encode = .ok commands)
    (hread : readPush hashAlgo (commands ++ pack) = .ok (req, pack')) :
    pack' = pack ∧ req.commands = [⟨old, new, name⟩] ∧ new.algo = hashAlgo := by
  rw [readPush_request h] at hread
  obtain ⟨req', hreq, heq⟩ := except_map_ok.mp hread
  cases heq
  obtain ⟨halgo, rfl⟩ := (PushRequest.parse_encoded (fun c hc => by
    rw [List.mem_singleton.mp hc]
    exact RefStore.nul_notMem_of_isRefName hname) h).mp hreq
  refine ⟨rfl, ?_, (halgo _ List.mem_cons_self).2⟩
  show [(⟨old, new, firstWord name⟩ : RefUpdateCommand)] = _
  rw [firstWord_eq_self.mpr (space_notMem_of_isRefName hname)]

/-! ## One command -/

/-- A command that is no delete is written whole or not at all. -/
theorem writeCommand_cases {refs : RefStore} {cmd : RefUpdateCommand}
    (hz : cmd.new.isZero = false) :
    (∃ e, writeCommand refs cmd = (.error e, refs)) ∨
      RefStore.CanUpdate refs.vfs cmd.name ∧
        writeCommand refs cmd = (.ok (), (refs.update cmd.name (.direct cmd.new)).2) := by
  rw [writeCommand, if_neg (by rw [hz]; exact Bool.false_ne_true)]
  by_cases hcan : RefStore.CanUpdate refs.vfs cmd.name
  · obtain ⟨hok, -, -⟩ := RefStore.update_of_canUpdate (.direct cmd.new) hcan
    right
    refine ⟨hcan, ?_⟩
    rcases hu : refs.update cmd.name (.direct cmd.new) with ⟨result, refs'⟩
    rw [hu] at hok
    cases hok
    rfl
  · obtain ⟨e, he⟩ := RefStore.update_of_not_canUpdate (.direct cmd.new) hcan
    rw [he]
    exact Or.inl ⟨e.toStr, rfl⟩

/-- What comes of the one command of a push. -/
theorem applyCommands_one (odb : D) (hook : UpdateHook) (refs : RefStore) (cmd : RefUpdateCommand)
    (caps : Capabilities) (unpack : Except Str Unit) :
    (∃ e, applyCommands odb hook refs ⟨[cmd], caps⟩ unpack = ([⟨cmd.name, .error e⟩], refs)) ∨
      unpack = .ok () ∧ applyCommands odb hook refs ⟨[cmd], caps⟩ unpack =
        ([⟨cmd.name, (writeCommand refs cmd).1⟩], (writeCommand refs cmd).2) := by
  cases unpack with
  | error e => exact Or.inl ⟨_, rfl⟩
  | ok u =>
    rw [applyCommands, if_neg (by exact Bool.false_ne_true)]
    by_cases hatomic : caps.has (str "atomic") = true
    · rw [if_pos hatomic, applyAtomic]
      cases hvet : vet odb hook refs cmd with
      | error e =>
        left
        refine ⟨e, ?_⟩
        rw [if_neg (by simp [hvet, Except.toBool])]
        simp [hvet, refusal]
      | ok u =>
        rw [if_pos (by simp [hvet, Except.toBool])]
        exact Or.inr ⟨rfl, rfl⟩
    · rw [if_neg hatomic, applyEach]
      cases hvet : vet odb hook refs cmd with
      | error e => exact Or.inl ⟨e, rfl⟩
      | ok u => exact Or.inr ⟨rfl, rfl⟩

/-! ## The pack is stored -/

/-- Reads the objects of a pack as they are stored. -/
def explodeWith (z : Zlib) (hasher : Hasher) : ExplodePack :=
  fun data algo resolve => explodePack z hasher data algo resolve

variable {z : Zlib} {new : ObjectId} {haves : List ObjectId} {w : PackWriter}
  {out : PackWriter.PackOutput}

/-- A store that can read the pack of a writer reads the objects it was made of, to its end. -/
theorem explodePackPrefix_carries (hz : z.Exact) (hclient : Partakes history client)
    (hodb : Partakes history odb) (hw : Carries hasher client new haves w)
    (hout : w.finish z = .ok out) (hlen : out.pack.length < 2 ^ 64)
    {r : List ExplodedObject × Nat}
    (h : explodePackPrefix z hasher out.pack (algo odb) (ObjectDatabase.read odb) = .ok r) :
    r = (w.entries.map fun e => (e.id, e.ty, e.payload), out.pack.length) := by
  have hhonest : w.Honest (ObjectDatabase.read odb) := by
    constructor
    · intro b hb e he hid
      have hbase := hclient.read (hw.bases b hb)
      rw [← hid, hclient.read (hw.entries e he)] at hbase
      exact Prod.mk.inj (Option.some.inj hbase)
    · intro b hb r hr
      exact (hclient.same hodb (hw.bases b hb) hr).symm
  have hsize : ∀ e ∈ w.entries, e.payload.length < 2 ^ 64 :=
    fun e he => history.length_lt (hclient.read (hw.entries e he))
  have hcount : w.entries.length < 2 ^ 32 := by
    have hids := history.count_lt (w.entries.map (·.id)) hw.valid.nodup fun id hid => ?_
    · rwa [List.length_map] at hids
    · obtain ⟨e, he, rfl⟩ := List.mem_map.mp hid
      rw [hclient.read (hw.entries e he)]
      rfl
  obtain ⟨hvalue, -⟩ := PackWriter.explodePackPrefix_finish hz hw.valid hhonest hsize
    hcount hout hlen []
  rw [List.append_nil, hw.hasher_eq, hw.algo_eq, hclient.algo_eq, ← hodb.algo_eq] at hvalue
  exact hvalue r h

/-- A remote that can read the pack of a push reads the objects it was made of. -/
theorem explode_carries (hz : z.Exact) (hclient : Partakes history client)
    (hodb : Partakes history odb) (hw : Carries hasher client new haves w)
    (hout : w.finish z = .ok out) (hlen : out.pack.length < 2 ^ 64)
    {objects : List ExplodedObject}
    (h : explodePack z hasher out.pack (algo odb) (ObjectDatabase.read odb) = .ok objects) :
    objects = w.entries.map fun e => (e.id, e.ty, e.payload) := by
  obtain ⟨r, hr, rfl⟩ := except_map_ok.mp h
  rw [explodePackPrefix_carries hz hclient hodb hw hout hlen hr]

/-- A pack is known for one. -/
theorem isPrefixOf_finish (hout : w.finish z = .ok out) :
    (bytes "PACK").isPrefixOf out.pack = true := by
  obtain ⟨s, hrun, hout⟩ := except_bind_ok.mp hout
  cases hout
  obtain ⟨more, hmore⟩ : ∃ more, s.pack = PackWriter.packHeader w.entries.length ++ more :=
    PackWriter.foldlM_writeObject_pack hrun
  rw [List.isPrefixOf_iff_prefix]
  show packSignature <+: s.pack ++ _
  rw [hmore, PackWriter.packHeader, List.append_assoc, List.append_assoc, List.append_assoc]
  exact List.prefix_append _ _

/-- The objects that a remote reads from the pack of a push are of the history. -/
theorem packFits_carries (hz : z.Exact) (hclient : Partakes history client)
    (hodb : Partakes history odb) (hw : Carries hasher client new haves w)
    (hout : w.finish z = .ok out) (hlen : out.pack.length < 2 ^ 64) :
    PackFits history.Has (explodeWith z hasher) odb out.pack := by
  intro objects hobjects object hobject
  rw [explode_carries hz hclient hodb hw hout hlen hobjects] at hobject
  obtain ⟨e, he, rfl⟩ := List.mem_map.mp hobject
  exact history.has_of_object (hclient.read (hw.entries e he))

variable {Held : D → Prop}

/-- **A pack of a push that is unpacked has all its objects in the store.** -/
theorem unpackPush_carries (laws : ContentAddressed hasher hashAlgo Held history.Has) (hz : z.Exact)
    (hclient : Partakes history client) (hodb : Stores history Held odb)
    (hw : Carries hasher client new haves w) (hout : w.finish z = .ok out)
    (hlen : out.pack.length < 2 ^ 64) :
    Stores history Held (unpackPush (explodeWith z hasher) odb out.pack).2 ∧
      ((unpackPush (explodeWith z hasher) odb out.pack).1 = .ok () →
        ∀ e ∈ w.entries, ∃ r, ObjectDatabase.read (unpackPush (explodeWith z hasher) odb out.pack).2
          e.id = .ok r) := by
  rw [unpackPush, if_pos (isPrefixOf_finish hout), ingestInto]
  cases hobjects : explodeWith z hasher out.pack (algo odb) (ObjectDatabase.read odb) with
  | error e => exact ⟨hodb, fun h => by cases h⟩
  | ok objects =>
    have hentries := explode_carries hz hclient hodb.toPartakes hw hout hlen hobjects
    have hall : ∀ object ∈ objects, history.object object.1 = some object.2 := by
      intro object hobject
      rw [hentries] at hobject
      obtain ⟨e, he, rfl⟩ := List.mem_map.mp hobject
      exact hclient.read (hw.entries e he)
    obtain ⟨hstores, hread⟩ := hodb.writeObjects laws hall
    simp only
    cases hresult : Server.writeObjects odb objects with
    | mk result odb' =>
      rw [hresult] at hstores hread
      cases result with
      | error e => exact ⟨hstores, fun h => by cases h⟩
      | ok ids =>
        refine ⟨hstores, fun _ e he => hread ids rfl (e.id, e.ty, e.payload) ?_⟩
        rw [hentries]
        exact List.mem_map_of_mem he

end

/-! ## What the refs lead to -/

section
variable {D : Type} [ObjectDatabase D] {odb odb' : D} {refs : RefStore}

/-- Whatever a file of the ref store names, as a loose ref or a packed one, is there with all that
it leads to. -/
structure Stored (odb : D) (refs : RefStore) : Prop where
  files : ∀ p d id, refs.vfs.get? p = some (.leaf d) →
    Reference.parse refs.algo d = .ok (.direct id) → Whole odb id
  packed : ∀ entries, refs.packed = .ok entries → ∀ e ∈ entries, Whole odb e.id

theorem Stored.grow (h : Stored odb refs) (hgrow : Grows odb odb') : Stored odb' refs where
  files p d id hp hd := (h.files p d id hp hd).grow hgrow
  packed entries hentries e he := (h.packed entries hentries e he).grow hgrow

theorem Stored.lookup (h : Stored odb refs) {name : Str} {id : ObjectId}
    (hid : refs.lookup name = .ok (.direct id)) :
    Whole odb id := by
  have hvalue : refs.value? name = some (.direct id) := by
    rw [RefStore.value?, hid]
    rfl
  rw [RefStore.value?_eq] at hvalue
  cases hstat : Vfs.stat refs.vfs name with
  | ok e =>
    rw [hstat] at hvalue
    cases e with
    | dir => cases hvalue
    | leaf d =>
      obtain ⟨r, -, hget, -⟩ := Vfs.stat_ok.mp hstat
      exact h.files r.path d id hget (toOption_eq_some.mp hvalue)
  | error e =>
    rw [hstat] at hvalue
    obtain ⟨id', hid', heq⟩ := Option.map_eq_some_iff.mp hvalue
    cases heq
    rw [RefStore.packedId] at hid'
    cases hpacked : refs.packed with
    | error e =>
      rw [hpacked] at hid'
      cases hid'
    | ok entries =>
      rw [hpacked] at hid'
      obtain ⟨e, he, rfl⟩ := Option.map_eq_some_iff.mp hid'
      exact h.packed entries hpacked e (List.mem_of_find?_eq_some he)

/-- What a name resolves to is there. -/
theorem Stored.resolve (h : Stored odb refs) {name : Str} {id : ObjectId}
    (hid : refs.resolve name = .ok id) :
    Whole odb id := by
  have hfrom : ∀ n cur, refs.resolveFrom name n cur = .ok id → Whole odb id := by
    intro n
    induction n with
    | zero =>
      intro cur hcur
      cases hcur
    | succ n ih =>
      intro cur hcur
      rw [RefStore.resolveFrom] at hcur
      obtain ⟨value, hvalue, hcur⟩ := except_bind_ok.mp hcur
      cases value with
      | direct id' =>
        cases hcur
        exact h.lookup hvalue
      | symbolic target => exact ih target hcur
  exact hfrom _ _ hid

/-- What a listed name is listed with is there. -/
theorem Stored.list (h : Stored odb refs) {listed : BTreeMap Str ObjectId}
    (hlisted : refs.list = .ok listed) :
    ∀ name id, listed.get? name = some id → Whole odb id := by
  have hcollect : ∀ n dir (map map' : BTreeMap Str ObjectId),
    (∀ name id, map.get? name = some id → Whole odb id) →
      refs.collectLoose n dir map = .ok map' → ∀ name id, map'.get? name = some id →
        Whole odb id := by
    intro n
    induction n with
    | zero =>
      intro dir map map' hmap hcollect
      cases hcollect
      exact hmap
    | succ n ih =>
      intro dir map map' hmap hcollect
      rw [RefStore.collectLoose] at hcollect
      split at hcollect
      · obtain ⟨entries, -, hcollect⟩ := except_bind_ok.mp hcollect
        refine except_foldlM_inv (P := fun map => ∀ name id, map.get? name = some id →
          Whole odb id) ?_ hmap hcollect
        intro map hmap entry _ map' hentry
        dsimp only at hentry
        cases hkind : entry.2 with
        | dir =>
          rw [hkind] at hentry
          exact ih _ map map' hmap hentry
        | leaf d =>
          rw [hkind] at hentry
          dsimp only at hentry
          cases hresolve : refs.resolve (dir ++ '/' :: entry.1) with
          | error e =>
            rw [hresolve] at hentry
            cases hentry
            exact hmap
          | ok id =>
            rw [hresolve] at hentry
            cases hentry
            intro name id' hget
            rw [BTreeMap.get?_insert] at hget
            split at hget
            · cases hget
              exact h.resolve hresolve
            · exact hmap name id' hget
      · cases hcollect
        exact hmap
  obtain ⟨entries, hentries, hlisted⟩ := except_bind_ok.mp hlisted
  refine hcollect _ _ _ _ ?_ hlisted
  have hfold : ∀ (es : List PackedRef) (map : BTreeMap Str ObjectId), (∀ e ∈ es, e ∈ entries) →
      (∀ name id, map.get? name = some id → Whole odb id) →
      ∀ name id, (es.foldl (fun map e => map.insert e.name e.id) map).get? name = some id →
        Whole odb id := by
    intro es
    induction es with
    | nil => exact fun map _ hmap => hmap
    | cons e es ih =>
      intro map hes hmap
      refine ih _ (fun e' he' => hes e' (List.mem_cons_of_mem _ he')) fun name id hget => ?_
      rw [BTreeMap.get?_insert] at hget
      split at hget
      · cases hget
        exact h.packed entries hentries e (hes e List.mem_cons_self)
      · exact hmap name id hget
  refine hfold entries BTreeMap.empty (fun e he => he) fun name id hget => ?_
  rw [BTreeMap.get?_empty] at hget
  cases hget

/-- A ref that is set to a whole object leaves all of them whole. -/
theorem Stored.update (h : Stored odb refs) {name : Str} {new : ObjectId} (hnew : Whole odb new)
    (hcan : RefStore.CanUpdate refs.vfs name) : Stored odb (refs.update name (.direct new)).2 := by
  obtain ⟨-, halgo, hget⟩ := RefStore.update_of_canUpdate (.direct new) hcan
  constructor
  · intro p d id hp hd
    rw [hget] at hp
    rw [halgo] at hd
    by_cases hpath : p = RefStore.refPath name
    · rw [if_pos hpath] at hp
      cases hp
      rw [Reference.parse_direct_eq] at hd
      obtain ⟨id', hid', heq⟩ := except_map_ok.mp hd
      cases heq
      obtain ⟨-, rfl⟩ := ObjectId.fromHex_toHex_iff.mp hid'
      exact hnew
    · rw [if_neg hpath] at hp
      split at hp
      · cases hp
      · exact h.files p d id hp hd
  · intro entries hentries
    by_cases hpath : RefStore.packedPath = RefStore.refPath name
    · -- the file is no list of packed refs any more
      rw [RefStore.packed_eq, hget, if_pos hpath] at hentries
      simp only at hentries
      rw [parsePackedRefs_direct] at hentries
      cases hentries
    · by_cases hprefix : RefStore.packedPath <+: (RefStore.refPath name).dropLast
      · rw [RefStore.packed_eq, hget, if_neg hpath, if_pos hprefix] at hentries
        cases hentries
      · refine h.packed entries ?_
        rw [← hentries]
        refine (RefStore.packed_congr halgo ?_).symm
        rw [hget, if_neg hpath, if_neg hprefix]

end

/-! ## The remote -/

/-- A repository that is pushed to. -/
structure Remote (D : Type) where
  odb : D
  refs : RefStore

namespace Remote
variable {D : Type} [ObjectDatabase D]

/-- What a client reads of the advertisement. -/
def advertise (agent : Str) (capabilities : List Str) (remote : Remote D) :
    Except Error RefAdvertisement := do
  let out ← advertiseRefs remote.odb (accessOf remote.refs) .receivePack agent capabilities
  let packets ← PktLine.decodeAll out
  RefAdvertisement.parse (algo remote.odb) packets

/-- Serves a push: its response, and what it leaves. -/
def receive (z : Zlib) (hasher : Hasher) (hook : UpdateHook) (request : Bytes) (remote : Remote D) :
    Except Error Bytes × Remote D :=
  let r := receivePackOver (explodeWith z hasher) remote.odb remote.refs request hook
  (r.response, ⟨r.odb, r.refs⟩)

/-- The connection to a repository in the same process. -/
def transport (z : Zlib) (hasher : Hasher) (hook : UpdateHook) (agent : Str)
    (capabilities : List Str) :
    PushTransport (Remote D) where
  discover := advertise agent capabilities
  exchange request := Exec.step (receive z hasher hook request)

variable {agent : Str} {capabilities : List Str} {remote : Remote D} {advert : RefAdvertisement}

/-- The refs of an advertisement that a push reads; the placeholder stands for none. -/
def pushPairs (odb : D) (refs : RefAccess) (listed : BTreeMap Str ObjectId) :
    List (Str × ObjectId) :=
  match discoverable refs listed with
  | [] => [(str "capabilities^\x7b\x7d", ObjectId.zero (algo odb))]
  | pairs => pairs

theorem pushPairs_ne_nil (odb : D) (refs : RefAccess) (listed : BTreeMap Str ObjectId) :
    pushPairs odb refs listed ≠ [] := by
  rw [pushPairs]
  cases discoverable refs listed with
  | nil => exact List.cons_ne_nil _ _
  | cons first rest => exact List.cons_ne_nil _ _

theorem mem_pushPairs {odb : D} {refs : RefAccess} {listed : BTreeMap Str ObjectId}
    {pair : Str × ObjectId} (h : pair ∈ pushPairs odb refs listed) :
    pair.2.isZero = true ∨ pair ∈ discoverable refs listed := by
  rw [pushPairs] at h
  cases hpairs : discoverable refs listed with
  | nil =>
    rw [hpairs] at h
    rw [List.mem_singleton.mp h]
    left
    cases algo odb with
    | sha1 => rfl
    | sha256 => rfl
  | cons first rest =>
    rw [hpairs] at h
    exact Or.inr h

theorem advertiseRefs_receive {odb : D} {refs : RefAccess} {listed : BTreeMap Str ObjectId}
    (h : refs.list = .ok listed) :
    advertiseRefs odb refs .receivePack agent capabilities =
      (ReportStatus.encodeLines
        ((withCaps (advertisedCaps odb refs listed .receivePack agent capabilities)
        (pushPairs odb refs listed)).map (· ++ ['\n']))).map (· ++ PktLine.flushPkt) := by
  have hhead : ((refs.resolve (str "HEAD")).toOption.map fun id => id.toHex ++ str " HEAD").toList =
      ((refs.resolve (str "HEAD")).toOption.map fun head =>
        (str "HEAD", head)).toList.map refLine := by
    cases refs.resolve (str "HEAD") with
    | ok id => rfl
    | error e => rfl
  have hlisted : listedLines odb .receivePack listed.toList = listed.toList.map refLine := by
    rw [listedLines, ← List.flatMap_pure_eq_map]
    refine List.flatMap_congr fun ref _ => ?_
    cases peelTag odb ref.2 with
    | none => rfl
    | some p => rfl
  rw [advertiseRefs, h]
  show (ReportStatus.encodeLines _ >>= _) = _
  rw [hhead, hlisted, ← List.map_append, ← discoverable, pushPairs]
  cases discoverable refs listed with
  | nil =>
    show (ReportStatus.encodeLines _ >>= _) = _
    rw [except_bind_pure]
    congr 1
  | cons first rest =>
    show (ReportStatus.encodeLines _ >>= _) = _
    rw [except_bind_pure]
    rfl

/-- The ids that lines are read with are theirs. -/
theorem readAdvert_ids {hashAlgo : HashAlgo} {caps : Str} {pairs : List (Str × ObjectId)}
    (hne : pairs ≠ []) {s : RefAdvertisement.State}
    (h : readAdvert hashAlgo (withCaps caps pairs) = .ok s) :
    ∀ r ∈ s.advert.refs, ∃ pair ∈ pairs, pair.2 = r.id := by
  have hkept : ∀ {caps : Str} {pairs : List (Str × ObjectId)}, pairs ≠ [] →
      (∀ r ∈ pairs.head?, Char.ofNat 0 ∉ r.1) → readAdvert hashAlgo (withCaps caps pairs) = .ok s →
      ∀ r ∈ s.advert.refs, ∃ pair ∈ pairs, pair.2 = r.id := by
    intro caps pairs hne hnul h r hr
    obtain ⟨rfl, -, -⟩ := (readAdvert_withCaps hne hnul).mp h
    obtain ⟨pair, hpair, rfl⟩ := List.mem_map.mp hr
    exact ⟨pair, List.mem_of_mem_filter hpair, rfl⟩
  obtain ⟨first, rest, rfl⟩ := List.exists_cons_of_ne_nil hne
  by_cases hnul : Char.ofNat 0 ∈ first.1
  · -- a NUL in the first name cuts it, and the id stays
    obtain ⟨pre, post, hname, hpre⟩ := List.eq_append_cons_of_mem hnul
    have hcut : withCaps caps (first :: rest) =
        withCaps (post ++ Char.ofNat 0 :: caps) ((pre, first.2) :: rest) := by
      simp only [withCaps, refLine, hname, List.append_assoc, List.cons_append]
    rw [hcut] at h
    intro r hr
    obtain ⟨pair, hpair, hid⟩ := hkept (List.cons_ne_nil _ _) (by simpa using hpre) h r hr
    rcases List.mem_cons.mp hpair with rfl | hpair
    · exact ⟨first, List.mem_cons_self, hid⟩
    · exact ⟨pair, List.mem_cons_of_mem _ hpair, hid⟩
  · exact hkept hne (by simpa using hnul) h

/-- **What is advertised is there.** -/
theorem whole_of_advertised (hstored : Stored remote.odb remote.refs)
    (h : remote.advertise agent capabilities = .ok advert) :
    ∀ v ∈ remoteHaves advert, Whole remote.odb v := by
  obtain ⟨out, hout, h⟩ := except_bind_ok.mp h
  obtain ⟨packets, hpackets, h⟩ := except_bind_ok.mp h
  obtain ⟨listed, hlisted, -⟩ := except_bind_ok.mp hout
  rw [advertiseRefs_receive hlisted] at hout
  obtain ⟨body, hbody, rfl⟩ := except_map_ok.mp hout
  cases (decodeAll_message hbody).symm.trans hpackets
  rw [RefAdvertisement.parse, foldLines_encoded] at h
  obtain ⟨s, hs, rfl⟩ := except_map_ok.mp h
  intro v hv
  obtain ⟨r, hr, rfl⟩ := List.mem_map.mp hv
  obtain ⟨hr, hzero⟩ := List.mem_filter.mp hr
  obtain ⟨pair, hpair, hid⟩ := readAdvert_ids (pushPairs_ne_nil _ _ _) hs r hr
  rw [← hid] at hzero ⊢
  rcases mem_pushPairs hpair with hpair | hpair
  · rw [hpair] at hzero
    cases hzero
  · rcases List.mem_append.mp hpair with hpair | hpair
    · obtain ⟨head, hhead, rfl⟩ := Option.map_eq_some_iff.mp (Option.mem_toList.mp hpair)
      exact hstored.resolve (toOption_eq_some.mp hhead)
    · exact hstored.list hlisted pair.1 pair.2 (BTreeMap.get?_eq_some.mpr hpair)

end Remote

/-! ## One request -/

/-- A push on its way: the tip that a ref of the remote is to be at, and the request. -/
structure Sent where
  name : Str
  tip : ObjectId
  request : Bytes

section
variable {hasher : Hasher} {hashAlgo : HashAlgo} {z : Zlib} {D : Type} [ObjectDatabase D]

/-- The request is the command and the pack of a client that a remote can be left whole by: it has
what the pack leaves out. -/
structure Deliverable (C : Type) [ObjectDatabase C] (z : Zlib) (history : History hasher hashAlgo)
    (odb : D) (t : Sent) :
    Prop where
  isRefName : RefStore.IsRefName t.name
  tip : t.tip.isZero = false
  made : ∃ (client : C) (haves : List ObjectId) (w : PackWriter) (out : PackWriter.PackOutput)
    (advert : RefAdvertisement) (old : ObjectId) (commands : Bytes), Partakes history client ∧
      Carries hasher client t.tip haves w ∧
      (∀ v ∈ haves, Whole odb v) ∧ w.finish z = .ok out ∧ out.pack.length < 2 ^ 64 ∧
      (pushCommand hashAlgo advert old t.tip t.name).encode = .ok commands ∧
        t.request = commands ++ out.pack

variable {C : Type} [ObjectDatabase C] {history : History hasher hashAlgo} {t : Sent}

theorem Deliverable.grow {odb odb' : D} (h : Deliverable C z history odb t)
    (hgrow : Grows odb odb') :
    Deliverable C z history odb' t where
  isRefName := h.isRefName
  tip := h.tip
  made := by
    obtain ⟨client, haves, w, out, advert, old, commands, hclient, hw, hhaves, hrest⟩ := h.made
    exact ⟨client, haves, w, out, advert, old, commands, hclient, hw, fun v hv =>
      (hhaves v hv).grow hgrow, hrest⟩

/-- The report says that the ref is set. -/
def ReportsSet (report : ReportStatus) (name : Str) : Prop := ⟨name, .ok ()⟩ ∈ report.refs

variable {Held : D → Prop}

/-- What serving a request leaves. -/
structure Served (history : History hasher hashAlgo) (Held : D → Prop)
    (remote remote' : Remote D) (t : Sent) (response : Except Error Bytes) : Prop where
  stores : Stores history Held remote'.odb
  grows : Grows remote.odb remote'.odb
  algo_eq : remote'.refs.algo = remote.refs.algo
  stored : Stored remote'.odb remote'.refs
  delivered : ∀ report, response >>= readReport = .ok report → ReportsSet report t.name →
    Whole remote'.odb t.tip ∧ remote'.refs.current t.name = some t.tip

/-- A report that refuses a ref is not read as one that sets it. -/
theorem not_reportsSet_of_refused {name e : Str} {unpack : Except Str Unit}
    {report : ReportStatus} (hname : RefStore.IsRefName name)
    (h : (ReportStatus.mk unpack [⟨name, .error e⟩]).encode >>= readReport = .ok report) :
    ¬ReportsSet report name := by
  intro hset
  obtain ⟨bytes, hbytes, hparse⟩ := except_bind_ok.mp h
  obtain rfl := ReportStatus.parse_encoded hbytes hparse
  have hstatus := List.mem_singleton.mp hset
  have hread : ReportStatus.statusRead ⟨name, .error e⟩ = ⟨name, .error e⟩ :=
    ReportStatus.statusRead_eq_self.mpr (Or.inr (space_notMem_of_isRefName hname))
  rw [hread] at hstatus
  cases hstatus

/-- **What a push does to a remote.** -/
theorem Deliverable.served (laws : ContentAddressed hasher hashAlgo Held history.Has)
    {remote : Remote D} (hz : z.Exact) (hook : UpdateHook)
    (h : Deliverable C z history remote.odb t) (hstores : Stores history Held remote.odb)
    (halgo : remote.refs.algo = hashAlgo) (hstored : Stored remote.odb remote.refs) :
    Served history Held remote (remote.receive z hasher hook t.request).2 t
      (remote.receive z hasher hook t.request).1 := by
  obtain ⟨client, haves, w, out, advert, old, commands, hclient, hw, hhaves, hout, hlen, hcommands,
    hrequest⟩ := h.made
  rw [Remote.receive]
  cases hread : readPush (algo remote.odb) t.request with
  | error e =>
    have hreceived : receivePackOver (explodeWith z hasher) remote.odb remote.refs t.request hook =
        ⟨.error e, remote.odb, remote.refs⟩ := by
      rw [receivePackOver, hread]
    rw [hreceived]
    exact ⟨hstores, fun _ _ ho => ho, rfl, hstored, fun report hreport => by cases hreport⟩
  | ok read =>
    obtain ⟨req, pack⟩ := read
    have hread' := hread
    rw [hrequest, hstores.algo_eq] at hread'
    obtain ⟨rfl, hone, htip⟩ := readPush_pushCommand h.isRefName hcommands hread'
    obtain ⟨hunpacked, hall⟩ := unpackPush_carries laws hz hclient hstores hw hout hlen
    obtain ⟨-, halgo', hkept⟩ := keeps_unpackPush laws.toKeepsObjects hstores.held
      (packFits_carries hz hclient hstores.toPartakes hw hout hlen)
    have hgrow := grows_of_read halgo' hkept
    cases hunpack : unpackPush (explodeWith z hasher) remote.odb out.pack with
    | mk unpack odb' =>
      rw [hunpack] at hunpacked hall hgrow
      rw [receivePackOver_eq hread hunpack]
      obtain ⟨cmds, caps⟩ := req
      obtain rfl : cmds = [⟨old, t.tip, t.name⟩] := hone
      -- unless the ref is set, the refs are as they were and the report says no
      have hrefused : ∀ (e : Str) (report : ReportStatus),
          (ReportStatus.mk unpack [⟨t.name, .error e⟩]).encode >>= readReport = .ok report →
            ¬ReportsSet report t.name :=
        fun e report hreport => not_reportsSet_of_refused h.isRefName hreport
      rcases applyCommands_one odb' hook remote.refs ⟨old, t.tip, t.name⟩ caps unpack with
        ⟨e, happly⟩ | ⟨rfl, happly⟩
      · rw [happly]
        exact ⟨hunpacked, hgrow, rfl, hstored.grow hgrow, fun report hreport hset =>
          absurd hset (hrefused e report hreport)⟩
      · have hwhole : Whole odb' t.tip := whole_of_carries hclient hunpacked.toPartakes hw
          (fun v hv => (hhaves v hv).grow hgrow) (hall rfl)
        rw [happly]
        rcases @writeCommand_cases remote.refs ⟨old, t.tip, t.name⟩ h.tip with
          ⟨e, hwrite⟩ | ⟨hcan, hwrite⟩
        · rw [hwrite]
          exact ⟨hunpacked, hgrow, rfl, hstored.grow hgrow, fun report hreport hset =>
            absurd hset (hrefused e report hreport)⟩
        · obtain ⟨-, hsame, hget⟩ := RefStore.update_of_canUpdate (.direct t.tip) hcan
          rw [hwrite]
          refine ⟨hunpacked, hgrow, hsame, (hstored.grow hgrow).update hwhole hcan,
            fun report _ _ => ⟨hwhole, ?_⟩⟩
          have hleaf : (remote.refs.update t.name (.direct t.tip)).2.vfs.leaf?
            (RefStore.refPath t.name) =
              some (Reference.direct t.tip).toFileContents := by
            rw [FileTree.leaf?_eq_some, hget, if_pos rfl]
          exact RefStore.current_of_leaf? (RefStore.resolve_refPath h.isRefName)
            (htip.trans (halgo.symm.trans hsame.symm)) hleaf

/-! ## One push -/

/-- A client that pushes, and the refs of the push. -/
structure Pusher (C : Type) where
  odb : C
  refs : RefStore
  localRef : Str
  remoteRef : Str

/-- The most bytes there are in memory at a time. -/
def maxBuffer : Nat := 2 ^ 63 - 1

/-- A client that has objects of the history, with a ref that is set, and the name of a ref. -/
structure Pusher.Fit (history : History hasher hashAlgo) (p : Pusher C) : Prop where
  partakes : Partakes history p.odb
  tip : ∀ tip, p.refs.resolve p.localRef = .ok tip → tip.isZero = false
  isRefName : RefStore.IsRefName p.remoteRef

/-- What a client asks of a remote that advertises its refs to it. -/
def Pusher.ask (z : Zlib) (hasher : Hasher) (agent : Str) (capabilities : List Str)
    (remote : Remote D) (p : Pusher C) :
    Except Error (ObjectId × Option Bytes) := do
  let tip ← p.refs.resolve p.localRef
  let advert ← remote.advertise agent capabilities
  let request ← makeRequest z hasher p.odb advert tip p.remoteRef
  .ok (tip, request)

variable {agent : Str} {capabilities : List Str} {remote : Remote D} {p : Pusher C} {tip : ObjectId}
  {request : Bytes}

theorem Pusher.ask_ok {r : ObjectId × Option Bytes} :
    p.ask z hasher agent capabilities remote = .ok r ↔
    ∃ advert, p.refs.resolve p.localRef = .ok r.1 ∧
      remote.advertise agent capabilities = .ok advert ∧
      makeRequest z hasher p.odb advert r.1 p.remoteRef = .ok r.2 := by
  constructor
  · intro h
    obtain ⟨tip, htip, h⟩ := except_bind_ok.mp h
    obtain ⟨advert, hadvert, h⟩ := except_bind_ok.mp h
    obtain ⟨request, hrequest, h⟩ := except_bind_ok.mp h
    cases h
    exact ⟨advert, htip, hadvert, hrequest⟩
  · rintro ⟨advert, htip, hadvert, hrequest⟩
    rw [Pusher.ask, htip]
    show (remote.advertise agent capabilities >>= _) = _
    rw [hadvert]
    show (makeRequest z hasher p.odb advert r.1 p.remoteRef >>= _) = _
    rw [hrequest]
    rfl

/-- What is asked for can be delivered. -/
theorem Pusher.Fit.deliverable (hfit : p.Fit history) (hstored : Stored remote.odb remote.refs)
    (h : p.ask z hasher agent capabilities remote = .ok (tip, some request))
    (hlen : request.length ≤ maxBuffer) :
    Deliverable C z history remote.odb ⟨p.remoteRef, tip, request⟩ := by
  obtain ⟨advert, htip, hadvert, hrequest⟩ := Pusher.ask_ok.mp h
  obtain ⟨w, out, commands, hw, hout, hcommands, heq⟩ :=
    makeRequest_request hfit.partakes.sound hrequest
  rw [hfit.partakes.algo_eq] at hcommands
  have hpack : out.pack.length < 2 ^ 64 := by
    have hle := congrArg List.length heq
    rw [List.length_append] at hle
    rw [maxBuffer] at hlen
    omega
  exact ⟨hfit.isRefName, hfit.tip tip htip, p.odb, _, w, out, advert, _, commands,
    hfit.partakes, hw,
    Remote.whole_of_advertised hstored hadvert, hout, hpack, hcommands, heq⟩

/-- A tip that needs no request is advertised for the ref, and whole. -/
theorem Pusher.Fit.upToDate (hfit : p.Fit history) (hstored : Stored remote.odb remote.refs)
    (h : p.ask z hasher agent capabilities remote = .ok (tip, none)) :
    Whole remote.odb tip ∧ ∃ advert, remote.advertise agent capabilities = .ok advert ∧
      ∃ r ∈ advert.refs, r.name = p.remoteRef ∧ r.id = tip := by
  obtain ⟨advert, htip, hadvert, hrequest⟩ := Pusher.ask_ok.mp h
  obtain ⟨hhave, hadvertised⟩ := makeRequest_none (hfit.tip tip htip) hrequest
  exact ⟨Remote.whole_of_advertised hstored hadvert tip hhave, advert, hadvert, hadvertised⟩

/-- What a repository is that is pushed to: its objects are of the history, and those that its refs
lead to are there. -/
structure Remote.Fit (history : History hasher hashAlgo) (Held : D → Prop)
    (remote : Remote D) : Prop where
  stores : Stores history Held remote.odb
  algo_eq : remote.refs.algo = hashAlgo
  stored : Stored remote.odb remote.refs

/-- A push that is over, and the report that its client has. -/
structure Finished where
  name : Str
  tip : ObjectId
  report : ReportStatus

/-- The turn of a client: it reads the advertisement and sends what it asks for, unless a request of
its is on its way; or that request is served. -/
inductive Turn (C : Type) where
  | send (p : Pusher C)
  | serve (hook : UpdateHook)

/-- A client that sends has what it is to have. -/
def Turn.Fit (history : History hasher hashAlgo) : Turn C → Prop
  | .send p => p.Fit history
  | .serve _ => True

/-- A remote, the requests on their way, and the pushes that are over, newest first. -/
structure World (ι D : Type) where
  remote : Remote D
  sent : ι → Option Sent
  finished : List Finished

namespace World
variable {ι : Type}

/-- No client has done anything. -/
def start (remote : Remote D) : World ι D := ⟨remote, fun _ => none, []⟩

variable [DecidableEq ι]

/-- A client asks. -/
def send (z : Zlib) (hasher : Hasher) (agent : Str) (capabilities : List Str) (w : World ι D)
    (i : ι) (p : Pusher C) :
    World ι D :=
  if (w.sent i).isSome then w
  else
    match p.ask z hasher agent capabilities w.remote with
    | .error _ => w
    | .ok (tip, none) =>
      ⟨w.remote, w.sent, ⟨p.remoteRef, tip, Client.upToDate p.remoteRef⟩ :: w.finished⟩
    | .ok (tip, some request) =>
      if request.length ≤ maxBuffer then
        ⟨w.remote, Function.update w.sent i (some ⟨p.remoteRef, tip, request⟩), w.finished⟩
      else w

/-- The push of a client is over, if it can read the response. -/
def reported (t : Sent) (response : Except Error Bytes) (finished : List Finished) :
    List Finished :=
  match response >>= readReport with
  | .ok report => ⟨t.name, t.tip, report⟩ :: finished
  | .error _ => finished

/-- The request of a client is served. -/
def serve (z : Zlib) (hasher : Hasher) (hook : UpdateHook) (w : World ι D) (i : ι) : World ι D :=
  match w.sent i with
  | none => w
  | some t =>
    let r := w.remote.receive z hasher hook t.request
    ⟨r.2, Function.update w.sent i none, reported t r.1 w.finished⟩

/-- One turn of a client. -/
def step (z : Zlib) (hasher : Hasher) (agent : Str) (capabilities : List Str) (w : World ι D) :
    ι × Turn C → World ι D
  | (i, .send p) => w.send z hasher agent capabilities i p
  | (i, .serve hook) => w.serve z hasher hook i

/-- Turns of clients, one after the other. -/
def run (z : Zlib) (hasher : Hasher) (agent : Str) (capabilities : List Str) (w : World ι D)
    (turns : List (ι × Turn C)) :
    World ι D :=
  turns.foldl (step z hasher agent capabilities) w

/-- What holds at any time. -/
structure Safe (C : Type) [ObjectDatabase C] (z : Zlib) (history : History hasher hashAlgo)
    (Held : D → Prop) (w : World ι D) : Prop where
  remote : w.remote.Fit history Held
  deliverable : ∀ i t, w.sent i = some t → Deliverable C z history w.remote.odb t
  finished : ∀ f ∈ w.finished, ReportsSet f.report f.name → Whole w.remote.odb f.tip

variable {w : World ι D} {i : ι}

omit [DecidableEq ι] in
theorem Safe.start (hremote : remote.Fit history Held) :
    Safe C z history Held (start remote : World ι D) where
  remote := hremote
  deliverable i t ht := by cases ht
  finished f hf := absurd hf List.not_mem_nil

theorem Safe.send (h : Safe C z history Held w) (hfit : p.Fit history) :
    Safe C z history Held (w.send z hasher agent capabilities i p) := by
  rw [World.send]
  by_cases hidle : (w.sent i).isSome
  · rw [if_pos hidle]
    exact h
  rw [if_neg hidle]
  cases hask : p.ask z hasher agent capabilities w.remote with
  | error e => exact h
  | ok asked =>
    obtain ⟨tip, request⟩ := asked
    cases request with
    | none =>
      refine ⟨h.remote, h.deliverable, fun f hf hset => ?_⟩
      rcases List.mem_cons.mp hf with rfl | hf
      · exact (hfit.upToDate h.remote.stored hask).1
      · exact h.finished f hf hset
    | some request =>
      by_cases hlen : request.length ≤ maxBuffer
      · simp only [if_pos hlen]
        refine ⟨h.remote, fun j t ht => ?_, h.finished⟩
        by_cases hj : j = i
        · subst hj
          have hsent : Function.update w.sent j (some (⟨p.remoteRef, tip, request⟩ : Sent))
            j = some t := ht
          rw [Function.update_self] at hsent
          obtain rfl := Option.some.inj hsent
          exact hfit.deliverable h.remote.stored hask hlen
        · exact h.deliverable j t ((Function.update_of_ne hj _ _).symm.trans ht)
      · simp only [if_neg hlen]
        exact h

theorem mem_reported {t : Sent} {response : Except Error Bytes} {finished : List Finished}
    {f : Finished} :
    f ∈ reported t response finished ↔
      f ∈ finished ∨ ∃ report, response >>= readReport = .ok report ∧
        f = ⟨t.name, t.tip, report⟩ := by
  rw [reported]
  cases response >>= readReport with
  | error e => simp
  | ok report => simp [or_comm]

omit [DecidableEq ι] in
theorem Safe.served (laws : ContentAddressed hasher hashAlgo Held history.Has)
    (hz : z.Exact) (h : Safe C z history Held w) (hook : UpdateHook) {t : Sent}
    (ht : w.sent i = some t) :
    Served history Held w.remote (w.remote.receive z hasher hook t.request).2 t
      (w.remote.receive z hasher hook t.request).1 :=
  (h.deliverable i t ht).served laws hz hook h.remote.stores h.remote.algo_eq h.remote.stored

theorem Safe.serve (laws : ContentAddressed hasher hashAlgo Held history.Has)
    (hz : z.Exact) (h : Safe C z history Held w) (hook : UpdateHook) :
    Safe C z history Held (w.serve z hasher hook i) := by
  rw [World.serve]
  cases ht : w.sent i with
  | none => exact h
  | some t =>
    have hserved := h.served laws hz hook ht
    refine ⟨⟨hserved.stores, hserved.algo_eq.trans h.remote.algo_eq, hserved.stored⟩, fun j u hu =>
      ?_, fun f hf hset => ?_⟩
    · by_cases hj : j = i
      · subst hj
        cases (Function.update_self _ _ _).symm.trans hu
      · exact (h.deliverable j u ((Function.update_of_ne hj _ _).symm.trans hu)).grow hserved.grows
    · rcases mem_reported.mp hf with hf | ⟨report, hreport, rfl⟩
      · exact (h.finished f hf hset).grow hserved.grows
      · exact (hserved.delivered report hreport hset).1

theorem Safe.run (laws : ContentAddressed hasher hashAlgo Held history.Has)
    (hz : z.Exact) (h : Safe C z history Held w) {turns : List (ι × Turn C)}
    (hturns : ∀ t ∈ turns, t.2.Fit history) :
    Safe C z history Held (w.run z hasher agent capabilities turns) := by
  induction turns generalizing w with
  | nil => exact h
  | cons t turns ih =>
    refine ih ?_ fun u hu => hturns u (List.mem_cons_of_mem _ hu)
    obtain ⟨i, turn⟩ := t
    cases turn with
    | send p => exact h.send (hturns _ List.mem_cons_self)
    | serve hook => exact h.serve laws hz hook

end World

end

/-! ## Two branches of one commit -/

namespace DeliverySample
open FetchSample PushSample

/-- The objects of a store, as all there are. -/
def historyOf {hasher : Hasher} {odb : MemoryOdb} (hs : Sound hasher odb)
    (hlen : odb.objects.toList.length < 2 ^ 32) :
    History hasher odb.algo where
  object id := odb.objects.get? id
  hash h := hs.id _ _ _ (MemoryOdb.read_eq_ok.mpr h)
  length_lt h := hs.length _ _ _ (MemoryOdb.read_eq_ok.mpr h)
  count_lt ids hnodup hall := by
    have hsub : ids ⊆ odb.objects.toList.map (·.1) := by
      intro id hid
      obtain ⟨r, hr⟩ := Option.isSome_iff_exists.mp (hall id hid)
      exact List.mem_map.mpr ⟨(id, r), BTreeMap.get?_eq_some.mp hr, rfl⟩
    have hle := (hnodup.subperm hsub).length_le
    rw [List.length_map] at hle
    omega

theorem partakes_historyOf {hasher : Hasher} {odb : MemoryOdb} (hs : Sound hasher odb)
    (hlen : odb.objects.toList.length < 2 ^ 32) : Partakes (historyOf hs hlen) odb where
  algo_eq := rfl
  read hr := MemoryOdb.read_eq_ok.mp hr

/-- A store whose objects are under their ids. -/
theorem sound_of_objects {odb : MemoryOdb} (h : ∀ e ∈ odb.objects.toList,
    hashObject odb.hasher odb.algo e.2.1 e.2.2 = e.1 ∧ e.2.2.length < 2 ^ 64) :
      Sound odb.hasher odb where
  id _ _ _ hread := (h _ (BTreeMap.get?_eq_some.mp (MemoryOdb.read_eq_ok.mp hread))).1
  length _ _ _ hread := (h _ (BTreeMap.get?_eq_some.mp (MemoryOdb.read_eq_ok.mp hread))).2

/-- Each object of the client is under its id, and is small. -/
theorem chainStore_objects : ∀ e ∈ chainStore.objects.toList,
    (hashObject Hasher.sha .sha1 e.2.1 e.2.2 = e.1 ∧ e.2.2.length < 2 ^ 64) ∧
      (serializeLoose e.2.1 e.2.2).length ≤ 2 ^ 30 := by
  decide +kernel

theorem sound_chainStore : Sound Hasher.sha chainStore :=
  @sound_of_objects chainStore fun e he => (chainStore_objects e he).1

/-- The objects of a client with three commits and a tag. -/
def history : History Hasher.sha .sha1 := historyOf sound_chainStore (by decide)

/-- The refs of the client. -/
def refs : RefStore := (RefStore.update noRefs (str "refs/heads/main") (.direct first)).2

/-- The client, with a branch to push. -/
def pusher (name : String) : Pusher MemoryOdb := ⟨chainStore, refs, str "refs/heads/main", str name⟩

theorem resolve_main : refs.resolve (str "refs/heads/main") = .ok first := by
  decide +kernel

theorem isZero_first : first.isZero = false := by
  decide

theorem fit_pusher {name : String} (hname : RefStore.IsRefName (str name)) :
    (pusher name).Fit history where
  partakes := partakes_historyOf _ _
  tip tip htip := by
    obtain rfl := Except.ok.inj (resolve_main.symm.trans htip)
    exact isZero_first
  isRefName := hname

/-- A repository on disk with nothing in it. -/
def bare : Remote CombinedOdb := ⟨.empty .stored Hasher.sha .sha1, noRefs⟩

/-- The states of its store that serve what the client has. -/
abbrev Serving : CombinedOdb → Prop := CombinedOdb.Stocked .stored Hasher.sha .sha1 history.object

theorem loose_history : history.Loose := by
  intro id ty payload hobject
  exact (chainStore_objects _ (BTreeMap.get?_eq_some.mp hobject)).2

theorem laws : ContentAddressed Hasher.sha .sha1 Serving history.Has :=
  loose_history.contentAddressed Zlib.stored_exact Zlib.stored_capsOnly

theorem stored_noRefs {D : Type} [ObjectDatabase D] (odb : D) : Stored odb noRefs := by
  constructor
  · intro p d id hp
    have hempty : FileTree.empty.get? p = some (.leaf d) := hp
    by_cases hnil : p = []
    · subst hnil
      cases hempty
    · rw [FileTree.get?_empty hnil] at hempty
      cases hempty
  · intro entries hentries
    have hnone : noRefs.packed = .ok [] := by decide
    cases hnone.symm.trans hentries
    exact fun e he => absurd he List.not_mem_nil

theorem fit_bare : bare.Fit history Serving where
  stores := ⟨⟨rfl, fun hr => CombinedOdb.stocked_empty.serves.same _ _ _ hr⟩,
    CombinedOdb.stocked_empty⟩
  algo_eq := rfl
  stored := stored_noRefs _

/-- Two clients read the advertisement before either request is served. -/
def turns : List (Fin 2 × Turn MemoryOdb) :=
  [(0, .send (pusher "refs/heads/a")), (1, .send (pusher "refs/heads/b")), (0, .serve allow),
    (1, .serve allow)]

theorem fit_turns : ∀ t ∈ turns, t.2.Fit history := by
  intro t ht
  rcases List.mem_cons.mp ht with rfl | ht
  · exact fit_pusher (by decide)
  rcases List.mem_cons.mp ht with rfl | ht
  · exact fit_pusher (by decide)
  rcases List.mem_cons.mp ht with rfl | ht
  · trivial
  · rw [List.mem_singleton.mp ht]
    trivial

/-- When both clients have sent their request and one of them is served. -/
def racing : World (Fin 2) CombinedOdb :=
  (World.start bare).run Zlib.stored Hasher.sha [] [] (turns.take 3)

theorem racing_reports : ((racing.sent 1).map fun t =>
      (t.name, t.tip, ((racing.remote.receive Zlib.stored Hasher.sha allow t.request).1 >>=
        readReport).map (·.refs))) =
    some (str "refs/heads/b", first, .ok [⟨str "refs/heads/b", .ok ()⟩]) := by
  decide +kernel

/-- The push of one branch, with nothing in between. -/
def pushed : Option (Except Error ReportStatus × Remote CombinedOdb) :=
  push Zlib.stored Hasher.sha (pusher "refs/heads/a").odb (pusher "refs/heads/a").refs
    (Remote.transport Zlib.stored Hasher.sha allow [] []) (pusher "refs/heads/a").localRef
    (pusher "refs/heads/a").remoteRef bare

/-- What it asks for. -/
def asked : Except Error (ObjectId × Option Bytes) :=
  (pusher "refs/heads/a").ask Zlib.stored Hasher.sha [] [] bare

theorem pushed_ok : (pushed.map fun r => r.1.map (·.refs)) =
    some (.ok [⟨str "refs/heads/a", .ok ()⟩]) ∧
    asked.map (fun r => r.2.map List.length) = .ok (some 274) := by
  decide +kernel

end DeliverySample

end Puregit.Client
