import Puregit.Protocol.Messages

/-! # Protocol v2

A v2 request names a command; its capability lines come before a delimiter and its
argument lines after it.  A fetch response is a list of sections, of which the last is
the pack, multiplexed over sideband channel 1.
-/
namespace Puregit.V2
open PktLine

/-! ## Commands -/

/-- A parsed command request. -/
structure Command where
  name : Str
  capabilities : List Str
  args : List Str
  deriving DecidableEq

namespace Command

/-- The request read so far: its name if there was one, and whether the delimiter has
been seen. -/
structure State where
  name : Option Str
  capabilities : List Str
  args : List Str
  afterDelim : Bool

/-- Reads packets up to a flush or a response end. -/
def parseGo (s : State) : List Packet → State
  | [] => s
  | .delim :: ps => parseGo { s with afterDelim := true } ps
  | .flush :: _ => s
  | .responseEnd :: _ => s
  | .data d :: ps =>
      let text := fromUtf8Lossy (trimTrailingNewline d)
      if s.afterDelim then parseGo { s with args := s.args ++ [text] } ps
      else match stripPrefix? (str "command=") text with
        | some cmd => parseGo { s with name := some cmd } ps
        | none => parseGo { s with capabilities := s.capabilities ++ [text] } ps

/-- Parses a command request. -/
def parse (packets : List Packet) : Except Error Command :=
  let s := parseGo ⟨none, [], [], false⟩ packets
  match s.name with
  | none => .error (.protocol (str "v2: request has no command"))
  | some name => .ok ⟨name, s.capabilities, s.args⟩

end Command

/-- The parsed arguments of a fetch command. -/
structure FetchArgs where
  wants : List ObjectId
  haves : List ObjectId
  done : Bool
  thinPack : Bool
  noProgress : Bool
  deepen : Option Nat
  shallows : List ObjectId
  filter : Option Str
  wantRefs : List Str
  deepenSince : Option Int
  deepenNot : List Str
  deepenRelative : Bool
  deriving DecidableEq

namespace FetchArgs

/-- No arguments. -/
def default : FetchArgs := ⟨[], [], false, false, false, none, [], none, [], none, [], false⟩

/-- Reads one argument line; an unknown one is ignored. -/
def line (algo : HashAlgo) (a : FetchArgs) (l : Str) : Except Error FetchArgs :=
  match stripPrefix? (str "want ") l with
  | some oid =>
    (ObjectId.fromHex algo (trim oid)).map fun id => { a with wants := a.wants ++ [id] }
  | none =>
    match stripPrefix? (str "have ") l with
    | some oid =>
      (ObjectId.fromHex algo (trim oid)).map fun id => { a with haves := a.haves ++ [id] }
    | none =>
      match stripPrefix? (str "shallow ") l with
      | some oid =>
        (ObjectId.fromHex algo (trim oid)).map fun id => { a with shallows := a.shallows ++ [id] }
      | none =>
        match stripPrefix? (str "deepen-since ") l with
        | some since =>
          match parseI64 (trim since) with
          | none => .error (.protocol (str "v2 deepen-since: invalid time"))
          | some t => .ok { a with deepenSince := some t }
        | none =>
          match stripPrefix? (str "deepen-not ") l with
          | some name => .ok { a with deepenNot := a.deepenNot ++ [trim name] }
          | none =>
            if l = str "deepen-relative" then .ok { a with deepenRelative := true }
            else match stripPrefix? (str "deepen ") l with
              | some depth =>
                match parseU32 (trim depth) with
                | none => .error (.protocol (str "v2 deepen: invalid depth"))
                | some n => .ok { a with deepen := some n }
              | none =>
                match stripPrefix? (str "filter ") l with
                | some spec => .ok { a with filter := some (trim spec) }
                | none =>
                  match stripPrefix? (str "want-ref ") l with
                  | some name => .ok { a with wantRefs := a.wantRefs ++ [trim name] }
                  | none =>
                    if l = str "done" then .ok { a with done := true }
                    else if l = str "thin-pack" then .ok { a with thinPack := true }
                    else if l = str "no-progress" then .ok { a with noProgress := true }
                    else .ok a

/-- Parses the argument lines of a fetch command. -/
def parse (algo : HashAlgo) (command : Command) : Except Error FetchArgs :=
  command.args.foldlM (line algo) default

end FetchArgs

/-- Whether an argument line is present. -/
def Command.hasArg (command : Command) (arg : Str) : Bool := command.args.contains arg

/-! ## Responses -/

/-- A section of lines, ended by a delimiter, where there is one. -/
def sectionIf (present : Bool) (header : Str) (body : List Str) : Except Error Bytes :=
  if present then (ReportStatus.encodeLines (header :: body)).map (· ++ delimPkt) else .ok []

/-- The lines that acknowledge common objects. -/
def ackLines (common : List ObjectId) : List Str :=
  (if common.isEmpty then [str "NAK\n"] else idLines (str "ACK ") common) ++ [str "ready\n"]

/-- Encodes a fetch response from its sections; the pack comes last. -/
def encodeFetchSections (acknowledgments : Option (List ObjectId))
    (shallow unshallow : List ObjectId) (wantedRefs : List (ObjectId × Str))
    (packfileUris : List (Str × Str)) (pack : Bytes) : Except Error Bytes := do
  let acks ← sectionIf acknowledgments.isSome (str "acknowledgments\n")
    (ackLines (acknowledgments.getD []))
  let boundary ← sectionIf (!(shallow.isEmpty && unshallow.isEmpty)) (str "shallow-info\n")
    (idLines (str "shallow ") shallow ++ idLines (str "unshallow ") unshallow)
  let refs ← sectionIf (!wantedRefs.isEmpty) (str "wanted-refs\n")
    (wantedRefs.map fun r => r.1.toHex ++ ' ' :: r.2 ++ ['\n'])
  let uris ← sectionIf (!packfileUris.isEmpty) (str "packfile-uris\n")
    (packfileUris.map fun u => u.1 ++ ' ' :: u.2 ++ ['\n'])
  let header ← encodeLine (str "packfile\n")
  let body ← sideband (maxPktlineLen - 4 - 1) pack
  .ok (acks ++ boundary ++ refs ++ uris ++ header ++ body ++ flushPkt)

/-- A ref as `ls-refs` lists it: what it points at, if it is symbolic, and what the tag it
names peels to. -/
structure LsRef where
  name : Str
  id : ObjectId
  symrefTarget : Option Str
  peeled : Option ObjectId

/-- The line of a listed ref, with the attributes asked for. -/
def lsRefLine (symrefs peel : Bool) (r : LsRef) : Str :=
  let target := match symrefs, r.symrefTarget with
    | true, some target => str " symref-target:" ++ target
    | _, _ => []
  let peeled := match peel, r.peeled with
    | true, some p => str " peeled:" ++ p.toHex
    | _, _ => []
  r.id.toHex ++ ' ' :: r.name ++ target ++ peeled

/-- Encodes an ls-refs response. -/
def encodeLsRefsResponse (command : Command) (refs : List LsRef) : Except Error Bytes := do
  let wantSymrefs := command.hasArg (str "symrefs")
  let wantPeel := command.hasArg (str "peel")
  let prefixes := command.args.filterMap (stripPrefix? (str "ref-prefix "))
  let listed := refs.filter fun r => prefixes.isEmpty || prefixes.any (startsWith r.name ·)
  let body ← ReportStatus.encodeLines (listed.map fun r =>
    lsRefLine wantSymrefs wantPeel r ++ ['\n'])
  .ok (body ++ flushPkt)

/-! ## The client side -/

/-- Reads one line of an ls-refs response; a line of one word is skipped. -/
def lsRefsLine (algo : HashAlgo) (refs : List AdvertisedRef) (l : Bytes) :
    Except Error (List AdvertisedRef) := do
  let text ← utf8OrProtocol "v2 ls-refs: non-utf8 line" l
  match text.splitOn ' ' with
  | oid :: name :: _ => (ObjectId.fromHex algo oid).map fun id => refs ++ [⟨name, id⟩]
  | _ => .ok refs

/-- Parses an ls-refs response. -/
def parseLsRefsResponse (algo : HashAlgo) (packets : List Packet) :
    Except Error (List AdvertisedRef) :=
  foldLines (· == .flush) (lsRefsLine algo) [] packets

/-- The sections of a fetch response a client acts on. -/
structure FetchResponse where
  shallow : List ObjectId
  unshallow : List ObjectId
  packfileUris : List (Str × Str)
  pack : Bytes
  deriving DecidableEq

namespace FetchResponse

/-- The response read so far, and the section being read. -/
structure State where
  resp : FetchResponse
  inPackfile : Bool
  inUris : Bool

/-- Reads a data packet before the packfile section. -/
def sectionLine (algo : HashAlgo) (s : State) (line : Bytes) : Except Error State :=
  if line = bytes "packfile" then .ok { s with inPackfile := true }
  else if line = bytes "packfile-uris" then .ok { s with inUris := true }
  else if s.inUris then do
    let text ← utf8OrProtocol "v2 packfile-uris: non-utf8" line
    match splitOnce ' ' text with
    | some (hash, uri) =>
      .ok { s with resp := { s.resp with
              packfileUris := s.resp.packfileUris ++ [(trim hash, trim uri)] } }
    | none => .ok s
  else match stripPrefix? (bytes "shallow ") line with
    | some oid => do
      let text ← utf8OrProtocol "v2 shallow: non-utf8" oid
      (ObjectId.fromHex algo (trim text)).map fun id =>
        { s with resp := { s.resp with shallow := s.resp.shallow ++ [id] } }
    | none =>
      match stripPrefix? (bytes "unshallow ") line with
      | some oid => do
        let text ← utf8OrProtocol "v2 unshallow: non-utf8" oid
        (ObjectId.fromHex algo (trim text)).map fun id =>
          { s with resp := { s.resp with unshallow := s.resp.unshallow ++ [id] } }
      | none => .ok s

/-- Reads a data packet of the packfile section: channel 1 is the pack, 2 is progress
and 3 a fatal error. -/
def packData (s : State) : Bytes → Except Error State
  | [] => .ok s
  | channel :: payload =>
    if channel = 1 then .ok { s with resp := { s.resp with pack := s.resp.pack ++ payload } }
    else if channel = 3 then
      .error (.protocol (str "v2 fetch error: " ++ fromUtf8Lossy payload))
    else .ok s

/-- Reads one packet; a delimiter ends the list of URIs. -/
def packet (algo : HashAlgo) (s : State) : Packet → Except Error State
  | .delim => .ok { s with inUris := false }
  | .data d => if s.inPackfile then packData s d else sectionLine algo s (trimTrailingNewline d)
  | _ => .ok s

end FetchResponse

/-- Parses a fetch response. -/
def parseFetchResponseSections (algo : HashAlgo) (packets : List Packet) :
    Except Error FetchResponse := do
  let s ← packets.foldlM (FetchResponse.packet algo) ⟨⟨[], [], [], []⟩, false, false⟩
  if s.inPackfile then .ok s.resp
  else .error (.protocol (str "v2 fetch: response had no packfile section"))

end Puregit.V2
