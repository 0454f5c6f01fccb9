import Puregit.Oid
import Puregit.Protocol.PktLine

/-! # The messages of protocol v0/v1

The ref advertisement, the fetch request, the push request and its report.  Each is a
list of packets; a parser folds over the data packets, and the first error in packet
order is the one reported.
-/
namespace Puregit
open PktLine

/-! ## Capabilities -/

/-- A parsed capability set: keys, some with a value, in order. -/
structure Capabilities where
  items : List (Str × Option Str)
  deriving DecidableEq

namespace Capabilities

/-- An empty set. -/
def new : Capabilities := ⟨[]⟩

/-- Parses a space-separated list. -/
def parse (s : Str) : Capabilities :=
  ⟨((s.splitOn ' ').filter (!·.isEmpty)).map fun token =>
    match splitOnce '=' token with
    | some (k, v) => (k, some v)
    | none => (token, none)⟩

/-- Whether a key is present. -/
def has (c : Capabilities) (key : Str) : Bool := c.items.any (·.1 == key)

/-- The value of the first entry of a key. -/
def get (c : Capabilities) (key : Str) : Option Str := (c.items.find? (·.1 == key)).bind (·.2)

/-- Adds a flag. -/
def addFlag (c : Capabilities) (key : Str) : Capabilities := ⟨c.items ++ [(key, none)]⟩

/-- The hash algorithm of a name. -/
def algoOfName (name : Str) : Option HashAlgo :=
  if name = str "sha1" then some .sha1
  else if name = str "sha256" then some .sha256
  else none

/-- The advertised object format. -/
def objectFormat (c : Capabilities) : Option HashAlgo :=
  (c.get (str "object-format")).bind algoOfName

end Capabilities

/-! ## Folding over packets -/

/-- Folds `f` over the lines of the data packets up to the first packet `stop` holds of;
other packets are skipped. -/
def foldLines {σ : Type} (stop : Packet → Bool) (f : σ → Bytes → Except Error σ) :
    σ → List Packet → Except Error σ
  | s, [] => .ok s
  | s, p :: ps =>
    if stop p then .ok s
    else match p with
      | .data d => do
          let s' ← f s (trimTrailingNewline d)
          foldLines stop f s' ps
      | _ => foldLines stop f s ps

/-- What every line keeps, the whole fold keeps. -/
theorem foldLines_inv {σ : Type} {stop : Packet → Bool} {f : σ → Bytes → Except Error σ}
    {P : σ → Prop} (hf : ∀ s l s', f s l = .ok s' → P s → P s') {packets : List Packet} {s s' : σ}
    (hP : P s) (h : foldLines stop f s packets = .ok s') : P s' := by
  induction packets generalizing s with
  | nil =>
      cases h
      exact hP
  | cons p ps ih =>
      unfold foldLines at h
      split at h
      · cases h
        exact hP
      cases p with
      | data d =>
          obtain ⟨s₁, h₁, h⟩ := except_bind_ok.mp h
          exact ih (hf s _ s₁ h₁ hP) h
      | flush => exact ih hP h
      | delim => exact ih hP h
      | responseEnd => exact ih hP h

/-- The text of a line, or an error with the given message. -/
def utf8OrProtocol (msg : String) (line : Bytes) : Except Error Str :=
  match fromUtf8 line with
  | some s => .ok s
  | none => .error (.protocol (str msg))

/-- A first line's part before its NUL and the capabilities after it. -/
def splitCaps (first : Bool) (line : Bytes) : Bytes × Option Bytes :=
  if first then
    match splitOnce 0 line with
    | some (l, caps) => (l, some caps)
    | none => (line, none)
  else (line, none)

/-! ## The ref advertisement -/

/-- One advertised reference. -/
structure AdvertisedRef where
  name : Str
  id : ObjectId
  deriving DecidableEq

/-- The most refs accepted from one advertisement. -/
def maxAdvertisedRefs : Nat := 262144

/-- A parsed reference advertisement. -/
structure RefAdvertisement where
  refs : List AdvertisedRef
  capabilities : Capabilities
  objectFormat : HashAlgo
  deriving DecidableEq

namespace RefAdvertisement

/-- The advertisement read so far, and whether no ref line has come yet. -/
structure State where
  advert : RefAdvertisement
  first : Bool

/-- Reads one line. -/
def line (s : State) (l : Bytes) : Except Error State :=
  if s.first && l == bytes "version 1" then .ok s
  else if !s.first && (bytes "shallow ").isPrefixOf l then .ok s
  else do
    let (refPart, capsPart) := splitCaps s.first l
    let advert ← match capsPart with
      | none => .ok s.advert
      | some caps => do
          let text ← utf8OrProtocol "advert: non-utf8 capabilities" caps
          let capabilities := Capabilities.parse text
          .ok { s.advert with
                capabilities := capabilities
                objectFormat := capabilities.objectFormat.getD s.advert.objectFormat }
    let text ← utf8OrProtocol "advert: non-utf8 ref line" refPart
    match splitOnce ' ' text with
    | none => .error (.protocol (str "advert: malformed ref line"))
    | some (oid, name) =>
      -- the placeholder of an empty repository, or what a tag peels to
      if name = str "capabilities^\x7b\x7d" ∨ endsWith name (str "^\x7b\x7d") then
        .ok ⟨advert, false⟩
      else if advert.refs.length ≥ maxAdvertisedRefs then
        .error (.protocol (str "advert: too many refs"))
      else do
        let id ← ObjectId.fromHex advert.objectFormat oid
        .ok ⟨{ advert with refs := advert.refs ++ [⟨name, id⟩] }, false⟩

/-- Parses an advertisement from its packets. -/
def parse (algo : HashAlgo) (packets : List Packet) : Except Error RefAdvertisement :=
  (foldLines (· == .flush) line ⟨⟨[], Capabilities.new, algo⟩, true⟩ packets).map (·.advert)

end RefAdvertisement

/-! ## The fetch request -/

/-- A client's upload-pack request. -/
structure FetchRequest where
  wants : List ObjectId
  haves : List ObjectId
  capabilities : Capabilities
  deepen : Option Nat
  shallows : List ObjectId
  done : Bool
  filter : Option Str
  deepenSince : Option Int
  deepenNot : List Str
  deepenRelative : Bool
  deriving DecidableEq

namespace FetchRequest

/-- A request with nothing in it. -/
def default : FetchRequest := ⟨[], [], Capabilities.new, none, [], false, none, none, [], false⟩

/-- The request read so far, and whether no want line has come yet. -/
structure State where
  req : FetchRequest
  firstWant : Bool

/-- Reads a want line after its keyword. -/
def wantLine (algo : HashAlgo) (s : State) (rest : Bytes) : Except Error State := do
  let text ← utf8OrProtocol "want: non-utf8" rest
  let (oid, caps) := match splitOnce ' ' text with
    | some (o, c) => (o, some c)
    | none => (text, none)
  let id ← ObjectId.fromHex algo (trim oid)
  let req := { s.req with wants := s.req.wants ++ [id] }
  if s.firstWant then
    match caps with
    | some c =>
      let capabilities := Capabilities.parse c
      .ok ⟨{ req with
              capabilities := capabilities
              deepenRelative := req.deepenRelative || capabilities.has (str "deepen-relative") },
            false⟩
    | none => .ok ⟨req, false⟩
  else .ok ⟨req, false⟩

/-- Reads the id of a have or shallow line after its keyword. -/
def idLine (algo : HashAlgo) (msg : String) (rest : Bytes) : Except Error ObjectId := do
  let text ← utf8OrProtocol msg rest
  ObjectId.fromHex algo (trim text)

/-- Reads one line; a line of no known keyword is ignored. -/
def line (algo : HashAlgo) (s : State) (l : Bytes) : Except Error State :=
  match stripPrefix? (bytes "want ") l with
  | some rest => wantLine algo s rest
  | none =>
    match stripPrefix? (bytes "have ") l with
    | some rest =>
      (idLine algo "have: non-utf8" rest).map fun id =>
        { s with req := { s.req with haves := s.req.haves ++ [id] } }
    | none =>
      match stripPrefix? (bytes "shallow ") l with
      | some rest =>
        (idLine algo "shallow: non-utf8" rest).map fun id =>
          { s with req := { s.req with shallows := s.req.shallows ++ [id] } }
      | none =>
        match stripPrefix? (bytes "deepen-since ") l with
        | some rest => do
          let text ← utf8OrProtocol "deepen-since: non-utf8" rest
          match parseI64 (trim text) with
          | none => .error (.protocol (str "deepen-since: invalid time"))
          | some t => .ok { s with req := { s.req with deepenSince := some t } }
        | none =>
          match stripPrefix? (bytes "deepen-not ") l with
          | some rest => do
            let text ← utf8OrProtocol "deepen-not: non-utf8" rest
            .ok { s with req := { s.req with deepenNot := s.req.deepenNot ++ [trim text] } }
          | none =>
            match stripPrefix? (bytes "deepen ") l with
            | some rest => do
              let text ← utf8OrProtocol "deepen: non-utf8" rest
              match parseU32 (trim text) with
              | none => .error (.protocol (str "deepen: invalid depth"))
              | some n => .ok { s with req := { s.req with deepen := some n } }
            | none =>
              match stripPrefix? (bytes "filter ") l with
              | some rest => do
                let text ← utf8OrProtocol "filter: non-utf8" rest
                .ok { s with req := { s.req with filter := some (trim text) } }
              | none =>
                if l = bytes "done" then .ok { s with req := { s.req with done := true } }
                else .ok s

/-- Parses an upload-pack request from its packets. -/
def parse (algo : HashAlgo) (packets : List Packet) : Except Error FetchRequest :=
  (foldLines (fun _ => false) (line algo) ⟨default, true⟩ packets).map (·.req)

end FetchRequest

/-! ## The push request -/

/-- A ref update: a zero `old` creates the ref, a zero `new` deletes it. -/
structure RefUpdateCommand where
  old : ObjectId
  new : ObjectId
  name : Str
  deriving DecidableEq

/-- The command section of a push. -/
structure PushRequest where
  commands : List RefUpdateCommand
  capabilities : Capabilities
  deriving DecidableEq

namespace PushRequest

/-- The request read so far, and whether no command has come yet. -/
structure State where
  req : PushRequest
  first : Bool

/-- The capabilities after a line that may carry some. -/
def lineCaps (s : State) : Option Bytes → Except Error Capabilities
  | none => .ok s.req.capabilities
  | some caps => (utf8OrProtocol "push: non-utf8 caps" caps).map Capabilities.parse

/-- Reads one line. -/
def line (algo : HashAlgo) (s : State) (l : Bytes) : Except Error State := do
  let parts := splitCaps s.first l
  let capabilities ← lineCaps s parts.2
  let text ← utf8OrProtocol "push: non-utf8 command" parts.1
  match text.splitOn ' ' with
  | old :: new :: name :: _ =>
    let old ← ObjectId.fromHex algo old
    let new ← ObjectId.fromHex algo new
    .ok ⟨⟨s.req.commands ++ [⟨old, new, name⟩], capabilities⟩, false⟩
  | [_, _] => .error (.protocol (str "push: missing ref name"))
  | [_] => .error (.protocol (str "push: missing new id"))
  | [] => .error (.protocol (str "push: missing old id"))

/-- Parses the command section, up to its flush. -/
def parse (algo : HashAlgo) (packets : List Packet) : Except Error PushRequest :=
  (foldLines (· == .flush) (line algo) ⟨⟨[], Capabilities.new⟩, true⟩ packets).map (·.req)

/-- The ids of every command are of the algorithm they were parsed with. -/
theorem algo_of_parse {algo : HashAlgo} {packets : List Packet} {req : PushRequest}
    (h : parse algo packets = .ok req) :
    ∀ cmd ∈ req.commands, cmd.old.algo = algo ∧ cmd.new.algo = algo := by
  obtain ⟨s, hs, rfl⟩ := except_map_ok.mp h
  refine foldLines_inv (P := fun s => ∀ cmd ∈ s.req.commands, cmd.old.algo = algo ∧
    cmd.new.algo = algo)
    (fun s l s' hl hs => ?_) (by simp) hs
  obtain ⟨caps, -, hl⟩ := except_bind_ok.mp hl
  obtain ⟨text, -, hl⟩ := except_bind_ok.mp hl
  split at hl
  · obtain ⟨old, hold, hl⟩ := except_bind_ok.mp hl
    obtain ⟨new, hnew, hl⟩ := except_bind_ok.mp hl
    cases hl
    intro cmd hcmd
    rcases List.mem_append.mp hcmd with hcmd | hcmd
    · exact hs cmd hcmd
    · rw [List.mem_singleton.mp hcmd]
      exact ⟨ObjectId.fromHex_algo hold, ObjectId.fromHex_algo hnew⟩
  · cases hl
  · cases hl
  · cases hl

end PushRequest

/-! ## The report -/

/-- One line of a push report: `none` for ok, a reason for ng. -/
structure RefStatus where
  name : Str
  result : Except Str Unit
  deriving DecidableEq

/-- A push report: the unpack result and one status a command. -/
structure ReportStatus where
  unpack : Except Str Unit
  refs : List RefStatus
  deriving DecidableEq

namespace ReportStatus

/-- The unpack line. -/
def unpackLine : Except Str Unit → Str
  | .ok _ => str "unpack ok\n"
  | .error e => str "unpack " ++ e ++ ['\n']

/-- The line of one ref. -/
def refLine (r : RefStatus) : Str :=
  match r.result with
  | .ok _ => str "ok " ++ r.name ++ ['\n']
  | .error reason => str "ng " ++ r.name ++ ' ' :: reason ++ ['\n']

/-- Encodes lines as data packets. -/
def encodeLines : List Str → Except Error Bytes
  | [] => .ok []
  | l :: ls => do
      let p ← encodeLine l
      let ps ← encodeLines ls
      .ok (p ++ ps)

/-- Encodes a report, ended by a flush. -/
def encode (r : ReportStatus) : Except Error Bytes := do
  let lines ← encodeLines (unpackLine r.unpack :: r.refs.map refLine)
  .ok (lines ++ flushPkt)

end ReportStatus

/-! ## Parts of responses -/

/-- The lines of a list of ids after a keyword. -/
def idLines (keyword : Str) (ids : List ObjectId) : List Str :=
  ids.map fun oid => keyword ++ oid.toHex ++ ['\n']

/-- The bytes of a pack in chunks of at most `n` on sideband channel 1. -/
def sideband (n : Nat) (pack : Bytes) : Except Error Bytes :=
  (pack.toChunks n).foldlM (fun out chunk => (encodeData (1 :: chunk)).map (out ++ ·)) []

end Puregit
