import Puregit.Protocol.Messages

/-! # Writing a fetch request

The request is a section of `want` lines, the first with the capabilities, and of lines that
limit the history, ended by a flush; then the `have` lines, and either `done` or a flush.
-/
namespace Puregit

/-- The decimal form of a signed number. -/
def intStr : Int → Str
  | .ofNat n => natStr n
  | .negSucc n => '-' :: natStr (n + 1)

namespace Capabilities

/-- Adds a key with a value. -/
def addValue (c : Capabilities) (key value : Str) : Capabilities := ⟨c.items ++ [(key, some value)]⟩

/-- One item as it is written. -/
def wireItem : Str × Option Str → Str
  | (key, some value) => key ++ '=' :: value
  | (key, none) => key

/-- The space-separated list of the items. -/
def toWire (c : Capabilities) : Str := [' '].intercalate (c.items.map wireItem)

/-- The wanted flags that a peer's set supports, in the order they are wanted. -/
def negotiateFlags (c : Capabilities) (wanted : List Str) : Capabilities :=
  wanted.foldl (fun agreed key => if c.has key then agreed.addFlag key else agreed) new

theorem negotiateFlags_items (c : Capabilities) (wanted : List Str) :
    (c.negotiateFlags wanted).items = (wanted.filter c.has).map fun key => (key, none) := by
  have hfold : ∀ (wanted : List Str) (agreed : Capabilities),
      (wanted.foldl (fun agreed key => if c.has key then agreed.addFlag key else agreed)
        agreed).items =
        agreed.items ++ (wanted.filter c.has).map fun key => (key, none) := by
    intro wanted
    induction wanted with
    | nil => exact fun agreed => (List.append_nil _).symm
    | cons key wanted ih =>
        intro agreed
        rw [List.foldl_cons, ih]
        by_cases hkey : c.has key = true
        · rw [if_pos hkey, List.filter_cons_of_pos hkey, addFlag, List.map_cons, List.append_assoc]
          rfl
        · rw [if_neg hkey, List.filter_cons_of_neg hkey]
  exact hfold wanted new

end Capabilities

namespace FetchRequest

/-- The capabilities of the first line. -/
def wireCapabilities (req : FetchRequest) : Str :=
  (if req.deepenRelative && !req.capabilities.has (str "deepen-relative") then
    req.capabilities.addFlag (str "deepen-relative") else req.capabilities).toWire

/-- The line of the first want. -/
def firstWantLine (req : FetchRequest) (want : ObjectId) : Str :=
  if req.wireCapabilities.isEmpty then str "want " ++ want.toHex ++ ['\n']
  else str "want " ++ want.toHex ++ ' ' :: req.wireCapabilities ++ ['\n']

/-- The lines of the wants. -/
def wantLines (req : FetchRequest) : List Str :=
  match req.wants with
  | [] => []
  | want :: wants => req.firstWantLine want :: idLines (str "want ") wants

/-- The lines that limit the history. -/
def limitLines (req : FetchRequest) : List Str :=
  idLines (str "shallow ") req.shallows
    ++ (req.deepen.map fun depth => str "deepen " ++ natStr depth ++ ['\n']).toList
    ++ (req.deepenSince.map fun since => str "deepen-since " ++ intStr since ++ ['\n']).toList
    ++ req.deepenNot.map (fun name => str "deepen-not " ++ name ++ ['\n'])
    ++ (req.filter.map fun filter => str "filter " ++ filter ++ ['\n']).toList

/-- The request without its end. -/
def encodePrefix (req : FetchRequest) : Except Error Bytes :=
  if req.wants.isEmpty then .error (.protocol (str "fetch: no wants"))
  else do
    let wants ← ReportStatus.encodeLines (req.wantLines ++ req.limitLines)
    let haves ← ReportStatus.encodeLines (idLines (str "have ") req.haves)
    .ok (wants ++ PktLine.flushPkt ++ haves)

/-- Encodes the request that asks for the pack. -/
def encode (req : FetchRequest) : Except Error Bytes := do
  let out ← req.encodePrefix
  let done ← PktLine.encodeLine (str "done\n")
  .ok (out ++ done)

end FetchRequest

end Puregit
