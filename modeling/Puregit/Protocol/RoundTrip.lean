import Puregit.Object.RoundTrip
import Puregit.Protocol.Lines
import Puregit.Protocol.Request

/-! # Requests are read back

A server parses the packets of a fetch request by the keywords of their lines.  It reads back
what the client wrote: `FetchRequest.parse_encode`.  Of the capabilities it does not see a flag
without a name, and it takes a capability `deepen-relative` for the request to deepen relative to
the boundary, whoever put it there.
-/
namespace Puregit
open PktLine

namespace Capabilities

/-- The items without the flags that have no name. -/
def named (c : Capabilities) : Capabilities := ⟨c.items.filter fun item => item ≠ ([], none)⟩

/-- No key or value is cut where it is written. -/
def Separable (c : Capabilities) : Prop :=
  ∀ item ∈ c.items, ' ' ∉ item.1 ∧ '=' ∉ item.1 ∧ ∀ value ∈ item.2, ' ' ∉ value

instance (c : Capabilities) : Decidable c.Separable :=
  inferInstanceAs (Decidable (∀ item ∈ c.items, _))

/-- One item as it is read. -/
def readItem (token : Str) : Str × Option Str :=
  match splitOnce '=' token with
  | some (k, v) => (k, some v)
  | none => (token, none)

theorem readItem_wireItem {item : Str × Option Str} (h : '=' ∉ item.1) :
    readItem (wireItem item) = item := by
  obtain ⟨key, value⟩ := item
  cases value with
  | some value => rw [wireItem, readItem, splitOnce_eq_some.mpr ⟨rfl, h⟩]
  | none => rw [wireItem, readItem, splitOnce_eq_none.mpr h]

theorem wireItem_eq_nil {item : Str × Option Str} : wireItem item = [] ↔ item = ([], none) := by
  obtain ⟨key, value⟩ := item
  cases value with
  | some value => simp [wireItem]
  | none => simp [wireItem]

/-- **What is written is read back**, but for flags without a name. -/
theorem parse_toWire {c : Capabilities} (h : c.Separable) : parse c.toWire = c.named := by
  have hspace : ∀ token ∈ c.items.map wireItem, ' ' ∉ token := by
    intro token htoken
    obtain ⟨⟨key, value⟩, hitem, rfl⟩ := List.mem_map.mp htoken
    obtain ⟨hkey, -, hvalue⟩ := h _ hitem
    cases value with
    | none => exact hkey
    | some value =>
        have hchar : ' ' ≠ '=' := by decide
        rw [wireItem, List.mem_append, List.mem_cons, not_or, not_or]
        exact ⟨hkey, hchar, hvalue value rfl⟩
  have hsplit : (c.toWire.splitOn ' ').filter (!·.isEmpty) =
      (c.items.map wireItem).filter (!·.isEmpty) := by
    by_cases hnil : c.items = []
    · rw [toWire, hnil]
      rfl
    · rw [toWire, List.splitOn_intercalate ' ' hspace (by simpa using hnil)]
  rw [parse, hsplit, named]
  refine congrArg Capabilities.mk ?_
  show ((c.items.map wireItem).filter (!·.isEmpty)).map readItem = _
  rw [List.filter_map, List.map_map]
  have hkept : c.items.filter ((!·.isEmpty) ∘ wireItem) = c.items.filter fun item =>
      item ≠ ([], none) := by
    refine List.filter_congr fun item _ => ?_
    have hnil := @wireItem_eq_nil item
    by_cases hitem : item = ([], none)
    · simp [hitem, wireItem]
    · simp [hitem, hnil]
  rw [hkept]
  conv_rhs => rw [← List.map_id (c.items.filter _)]
  refine List.map_congr_left fun item hitem => ?_
  exact readItem_wireItem (h item (List.mem_of_mem_filter hitem)).2.1

end Capabilities

/-- One line is read before what follows it. -/
theorem foldLines_cons {σ : Type} {f : σ → Bytes → Except Error σ} (l : Str)
    (packets : List Packet) (s : σ) :
    foldLines (fun _ => false) f s (linePacket (l ++ ['\n']) :: packets) =
      f s (toUtf8 l) >>= fun s => foldLines (fun _ => false) f s packets := by
  conv_lhs => unfold foldLines
  simp only [linePacket, Bool.false_eq_true, if_false, trimTrailingNewline_line]

/-- Lines are read before what follows them. -/
theorem foldLines_append {σ : Type} {f : σ → Bytes → Except Error σ} (lines : List Str)
    (packets : List Packet) (s : σ) : foldLines (fun _ => false) f s
      ((lines.map (· ++ ['\n'])).map linePacket ++ packets) =
      lines.foldlM (fun s l => f s (toUtf8 l)) s >>= fun s =>
        foldLines (fun _ => false) f s packets := by
  induction lines generalizing s with
  | nil => rfl
  | cons l ls ih =>
      rw [List.map_cons, List.map_cons, List.cons_append, foldLines_cons,
        List.foldlM_cons, bind_assoc]
      exact bind_congr fun s => ih s

/-- A list of fields, a line for each, is put to the fields already read. -/
theorem foldlM_put {α σ : Type} {f : σ → Bytes → Except Error σ} (text : α → Str)
    (put : σ → List α → σ) {P : σ → Prop} (hnil : ∀ s, put s [] = s)
    (hcons : ∀ s x xs, put (put s [x]) xs = put s (x :: xs)) {xs : List α}
    (hline : ∀ x ∈ xs, ∀ s, P s → f s (toUtf8 (text x)) = .ok (put s [x]) ∧ P (put s [x]))
    {s : σ} (hs : P s) :
    (xs.map text).foldlM (fun s l => f s (toUtf8 l)) s = .ok (put s xs) := by
  induction xs generalizing s with
  | nil =>
      rw [hnil]
      rfl
  | cons x xs ih =>
      obtain ⟨hread, hP⟩ := hline x List.mem_cons_self s hs
      rw [List.map_cons, List.foldlM_cons, hread, except_ok_bind,
        ih (fun y hy => hline y (List.mem_cons_of_mem x hy)) hP, hcons]

/-- A field that may be missing has a line or none. -/
theorem foldlM_optional {α σ : Type} {f : σ → Bytes → Except Error σ} (text : α → Str)
    (put : σ → Option α → σ) (hnone : ∀ s, put s none = s) {x? : Option α}
    (hline : ∀ x ∈ x?, ∀ s, f s (toUtf8 (text x)) = .ok (put s (some x))) (s : σ) :
    (x?.map text).toList.foldlM (fun s l => f s (toUtf8 l)) s = .ok (put s x?) := by
  cases x? with
  | none =>
      rw [hnone]
      rfl
  | some x =>
      rw [Option.map_some, Option.toList_some, List.foldlM_cons, hline x rfl]
      rfl

/-- A line with a long text does not fit. -/
theorem not_fits_long {n : Nat} (h : maxPktlineLen ≤ n) (before after : Str) :
    ¬ Fits (before ++ List.replicate n 'x' ++ after) := by
  intro hfits
  have hlong : (toUtf8 (List.replicate n 'x')).length = n := by
    rw [toUtf8, List.flatMap_replicate, show utf8Char 'x' = [120] from rfl]
    simp
  rw [Fits, toUtf8_append, toUtf8_append, List.length_append, List.length_append, hlong] at hfits
  omega

theorem intStr_eq_secs (n : Int) : intStr n = Signature.secs n := by
  cases n <;> rfl

theorem parseU32_natStr {n : Nat} (h : n < 2 ^ 32) : parseU32 (natStr n) = some n := by
  have hplus : ∀ r, natStr n ≠ '+' :: r := by
    intro r hr
    have hmem : '+' ∈ natStr n := by
      rw [hr]
      exact List.mem_cons_self
    exact absurd (isDigit_natStr hmem) (by decide)
  rw [parseU32, parseUnsigned, parseDigits_natStr, Option.bind_some, if_pos h]
  exact hplus

/-- A written number has no white space. -/
theorem trim_secs (time : Int) : trim (Signature.secs time) = Signature.secs time := by
  refine trim_of_not_whitespace fun c hc => ?_
  rcases Signature.mem_secs hc with rfl | hc
  · decide
  · rw [Char.isDigit, Bool.and_eq_true, decide_eq_true_eq, decide_eq_true_eq] at hc
    have hlo : 48 ≤ c.toNat := hc.1
    have hhi : c.toNat ≤ 57 := hc.2
    simp only [isWhitespace, Bool.or_eq_false_iff, Bool.and_eq_false_iff, decide_eq_false_iff_not,
      beq_eq_false_iff_ne]
    omega

namespace FetchRequest

/-- Encodes a round of a negotiation: the request without asking for the pack. -/
def encodeNegotiation (req : FetchRequest) : Except Error Bytes := do
  let out ← req.encodePrefix
  .ok (out ++ flushPkt)

/-- The capabilities that are sent. -/
def sentCapabilities (req : FetchRequest) : Capabilities :=
  if req.deepenRelative && !req.capabilities.has (str "deepen-relative") then
    req.capabilities.addFlag (str "deepen-relative") else req.capabilities

/-- A key that has a name is there without the flags that have none. -/
theorem has_named {c : Capabilities} {key : Str} (hkey : key ≠ []) :
    c.named.has key = c.has key := by
  rw [Bool.eq_iff_iff, Capabilities.has, Capabilities.has, Capabilities.named, List.any_eq_true,
    List.any_eq_true]
  constructor
  · rintro ⟨item, hitem, heq⟩
    exact ⟨item, List.mem_of_mem_filter hitem, heq⟩
  · rintro ⟨item, hitem, heq⟩
    refine ⟨item, List.mem_filter.mpr ⟨hitem, ?_⟩, heq⟩
    rw [decide_eq_true_iff]
    rintro rfl
    exact hkey (beq_iff_eq.mp heq).symm

/-! ## One line -/

section
variable {algo : HashAlgo} {s : State}

theorem idLine_toHex {id : ObjectId} (hid : id.algo = algo) (msg : String) :
    idLine algo msg (toUtf8 id.toHex) = .ok id := by
  rw [idLine, utf8OrProtocol, fromUtf8_toUtf8]
  show ObjectId.fromHex algo (trim id.toHex) = _
  rw [ObjectId.trim_toHex, ← hid, ObjectId.fromHex_toHex]

theorem line_have {id : ObjectId} (hid : id.algo = algo) :
    line algo s (toUtf8 (str "have " ++ id.toHex)) =
    .ok { s with req := { s.req with haves := s.req.haves ++ [id] } } := by
  rw [toUtf8_append, show toUtf8 (str "have ") = bytes "have " from rfl, line,
    show stripPrefix? (bytes "want ") (bytes "have " ++ toUtf8 id.toHex) = none from rfl,
    stripPrefix?_eq_some.mpr rfl]
  simp only [idLine_toHex hid]
  rfl

theorem line_shallow {id : ObjectId} (hid : id.algo = algo) :
    line algo s (toUtf8 (str "shallow " ++ id.toHex)) =
    .ok { s with req := { s.req with shallows := s.req.shallows ++ [id] } } := by
  rw [toUtf8_append, show toUtf8 (str "shallow ") = bytes "shallow " from rfl, line,
    show stripPrefix? (bytes "want ") (bytes "shallow " ++ toUtf8 id.toHex) = none from rfl]
  simp only
  rw [show stripPrefix? (bytes "have ") (bytes "shallow " ++ toUtf8 id.toHex) = none from rfl,
    stripPrefix?_eq_some.mpr rfl]
  simp only [idLine_toHex hid]
  rfl

/-- A further want line. -/
theorem line_want {id : ObjectId} (hid : id.algo = algo) (hfirst : s.firstWant = false) :
    line algo s (toUtf8 (str "want " ++ id.toHex)) =
      .ok { s with req := { s.req with wants := s.req.wants ++ [id] } } := by
  have hspace : splitOnce ' ' id.toHex = none := splitOnce_eq_none.mpr fun h =>
    absurd (ObjectId.mem_toHex h) (by decide)
  rw [toUtf8_append, show toUtf8 (str "want ") = bytes "want " from rfl, line,
    stripPrefix?_eq_some.mpr rfl]
  simp only [wantLine, utf8OrProtocol, fromUtf8_toUtf8, except_ok_bind, hspace, ObjectId.trim_toHex]
  rw [← hid, ObjectId.fromHex_toHex, except_ok_bind,
    if_neg (by rw [hfirst]; exact Bool.false_ne_true), ← hfirst]

theorem line_deepenSince {since : Int} (hsince : Signature.IsI64 since) :
    line algo s (toUtf8 (str "deepen-since " ++ intStr since)) =
      .ok { s with req := { s.req with deepenSince := some since } } := by
  have htrim : trim (intStr since) = intStr since := by
    rw [intStr_eq_secs]
    exact trim_secs since
  have hparse : parseI64 (intStr since) = some since := by
    rw [intStr_eq_secs]
    exact Signature.parseI64_secs hsince
  rw [toUtf8_append, show toUtf8 (str "deepen-since ") = bytes "deepen-since " from rfl, line]
  simp only [show stripPrefix? (bytes "want ") (bytes "deepen-since " ++ toUtf8 (intStr since)) =
    none from rfl,
    show stripPrefix? (bytes "have ") (bytes "deepen-since " ++ toUtf8 (intStr since)) =
      none from rfl,
    show stripPrefix? (bytes "shallow ") (bytes "deepen-since " ++ toUtf8 (intStr since)) =
      none from rfl,
    stripPrefix?_eq_some.mpr rfl, utf8OrProtocol, fromUtf8_toUtf8, except_ok_bind, htrim, hparse]

theorem line_deepenNot {name : Str} (hname : trim name = name) :
    line algo s (toUtf8 (str "deepen-not " ++ name)) =
      .ok { s with req := { s.req with deepenNot := s.req.deepenNot ++ [name] } } := by
  rw [toUtf8_append, show toUtf8 (str "deepen-not ") = bytes "deepen-not " from rfl, line]
  simp only [show stripPrefix? (bytes "want ") (bytes "deepen-not " ++ toUtf8 name) = none from rfl,
    show stripPrefix? (bytes "have ") (bytes "deepen-not " ++ toUtf8 name) = none from rfl,
    show stripPrefix? (bytes "shallow ") (bytes "deepen-not " ++ toUtf8 name) = none from rfl,
    show stripPrefix? (bytes "deepen-since ") (bytes "deepen-not " ++ toUtf8 name) = none from rfl,
    stripPrefix?_eq_some.mpr rfl, utf8OrProtocol, fromUtf8_toUtf8, except_ok_bind, hname]

theorem line_deepen {depth : Nat} (hdepth : depth < 2 ^ 32) :
    line algo s (toUtf8 (str "deepen " ++ natStr depth)) =
      .ok { s with req := { s.req with deepen := some depth } } := by
  have htrim : trim (natStr depth) = natStr depth := trim_secs depth
  rw [toUtf8_append, show toUtf8 (str "deepen ") = bytes "deepen " from rfl, line]
  simp only [show stripPrefix? (bytes "want ") (bytes "deepen " ++ toUtf8 (natStr depth)) =
    none from rfl,
    show stripPrefix? (bytes "have ") (bytes "deepen " ++ toUtf8 (natStr depth)) = none from rfl,
    show stripPrefix? (bytes "shallow ") (bytes "deepen " ++ toUtf8 (natStr depth)) = none from rfl,
    show stripPrefix? (bytes "deepen-since ") (bytes "deepen " ++ toUtf8 (natStr depth)) =
      none from rfl,
    show stripPrefix? (bytes "deepen-not ") (bytes "deepen " ++ toUtf8 (natStr depth)) =
      none from rfl,
    stripPrefix?_eq_some.mpr rfl, utf8OrProtocol, fromUtf8_toUtf8, except_ok_bind, htrim,
      parseU32_natStr hdepth]

theorem line_filter {filter : Str} (hfilter : trim filter = filter) :
    line algo s (toUtf8 (str "filter " ++ filter)) =
      .ok { s with req := { s.req with filter := some filter } } := by
  rw [toUtf8_append, show toUtf8 (str "filter ") = bytes "filter " from rfl, line]
  simp only [show stripPrefix? (bytes "want ") (bytes "filter " ++ toUtf8 filter) = none from rfl,
    show stripPrefix? (bytes "have ") (bytes "filter " ++ toUtf8 filter) = none from rfl,
    show stripPrefix? (bytes "shallow ") (bytes "filter " ++ toUtf8 filter) = none from rfl,
    show stripPrefix? (bytes "deepen-since ") (bytes "filter " ++ toUtf8 filter) = none from rfl,
    show stripPrefix? (bytes "deepen-not ") (bytes "filter " ++ toUtf8 filter) = none from rfl,
    show stripPrefix? (bytes "deepen ") (bytes "filter " ++ toUtf8 filter) = none from rfl,
    stripPrefix?_eq_some.mpr rfl, utf8OrProtocol, fromUtf8_toUtf8, except_ok_bind, hfilter]

theorem line_done : line algo s (toUtf8 (str "done")) =
    .ok { s with req := { s.req with done := true } } := rfl

end

/-! ## The request -/

/-- The text of a want line, the first one with the capabilities. -/
def firstText (req : FetchRequest) (want : ObjectId) : Str :=
  str "want " ++ want.toHex ++ if req.wireCapabilities.isEmpty then []
    else ' ' :: req.wireCapabilities

/-- The texts of the lines that limit the history. -/
def limitTexts (req : FetchRequest) : List Str :=
  req.shallows.map (fun id => str "shallow " ++ id.toHex)
    ++ ((req.deepen.map fun depth => str "deepen " ++ natStr depth).toList
    ++ ((req.deepenSince.map fun since => str "deepen-since " ++ intStr since).toList
    ++ (req.deepenNot.map (fun name => str "deepen-not " ++ name)
    ++ (req.filter.map fun filter => str "filter " ++ filter).toList)))

theorem idLines_eq (keyword : Str) (ids : List ObjectId) :
    idLines keyword ids = (ids.map fun id => keyword ++ id.toHex).map (· ++ ['\n']) := by
  rw [idLines, List.map_map]
  rfl

theorem firstWantLine_eq (req : FetchRequest) (want : ObjectId) :
    req.firstWantLine want = req.firstText want ++ ['\n'] := by
  rw [firstWantLine, firstText]
  split <;> simp

theorem limitLines_eq (req : FetchRequest) : req.limitLines = req.limitTexts.map (· ++ ['\n']) := by
  simp only [limitLines, limitTexts, idLines_eq, List.map_append, List.map_map, List.append_assoc,
    Option.toList_map,
    Function.comp_def]

/-- What a request can be read back from. -/
structure Readable (algo : HashAlgo) (req : FetchRequest) : Prop where
  wants : ∀ id ∈ req.wants, id.algo = algo
  haves : ∀ id ∈ req.haves, id.algo = algo
  shallows : ∀ id ∈ req.shallows, id.algo = algo
  deepen : ∀ depth ∈ req.deepen, depth < 2 ^ 32
  deepenSince : ∀ since ∈ req.deepenSince, Signature.IsI64 since
  deepenNot : ∀ name ∈ req.deepenNot, trim name = name
  filter : ∀ filter ∈ req.filter, trim filter = filter
  capabilities : req.capabilities.Separable

/-- The request a server reads. -/
def received (req : FetchRequest) (done : Bool) : FetchRequest :=
  { req with
    done := done
    capabilities := req.sentCapabilities.named
    deepenRelative := req.sentCapabilities.has (str "deepen-relative") }

section
variable {algo : HashAlgo} {req : FetchRequest}

theorem separable_sentCapabilities (h : req.capabilities.Separable) :
    req.sentCapabilities.Separable := by
  have hflag : (req.capabilities.addFlag (str "deepen-relative")).Separable := by
    intro item hitem
    rcases List.mem_append.mp hitem with hitem | hitem
    · exact h item hitem
    · obtain rfl := List.mem_singleton.mp hitem
      decide
  rw [sentCapabilities]
  split
  · exact hflag
  · exact h

/-- The first want line, with the capabilities. -/
theorem line_firstText (h : req.capabilities.Separable) {want : ObjectId}
    (hwant : want.algo = algo) :
    line algo ⟨default, true⟩ (toUtf8 (req.firstText want)) =
      .ok ⟨{ default with
              wants := [want]
              capabilities := req.sentCapabilities.named
              deepenRelative := req.sentCapabilities.has (str "deepen-relative") }, false⟩ := by
  have hspace : ' ' ∉ want.toHex := fun h => absurd (ObjectId.mem_toHex h) (by decide)
  have hparse : Capabilities.parse req.wireCapabilities = req.sentCapabilities.named :=
    Capabilities.parse_toWire (separable_sentCapabilities h)
  have hhas : req.sentCapabilities.named.has (str "deepen-relative") =
      req.sentCapabilities.has (str "deepen-relative") := has_named (by decide)
  rw [← hhas, ← hparse, firstText, List.append_assoc, toUtf8_append,
    show toUtf8 (str "want ") = bytes "want " from rfl,
    line, stripPrefix?_eq_some.mpr rfl]
  simp only [wantLine, utf8OrProtocol, fromUtf8_toUtf8, except_ok_bind]
  by_cases hempty : req.wireCapabilities.isEmpty = true
  · rw [if_pos hempty, List.append_nil, splitOnce_eq_none.mpr hspace, List.isEmpty_iff.mp hempty]
    simp only [ObjectId.trim_toHex]
    rw [← hwant, ObjectId.fromHex_toHex]
    rfl
  · rw [if_neg hempty, splitOnce_eq_some.mpr ⟨rfl, hspace⟩]
    simp only [ObjectId.trim_toHex]
    rw [← hwant, ObjectId.fromHex_toHex]
    rfl

/-- The lines that limit the history are put to the request. -/
theorem foldlM_limitTexts (h : req.Readable algo) (s : State) :
    req.limitTexts.foldlM (fun s l => line algo s (toUtf8 l)) s =
      .ok { s with req := { s.req with
              shallows := s.req.shallows ++ req.shallows
              deepen := req.deepen.or s.req.deepen
              deepenSince := req.deepenSince.or s.req.deepenSince
              deepenNot := s.req.deepenNot ++ req.deepenNot
              filter := req.filter.or s.req.filter } } := by
  have hshallows : ∀ s, (req.shallows.map fun id => str "shallow " ++ id.toHex).foldlM
      (fun s l => line algo s (toUtf8 l)) s =
        .ok { s with req := { s.req with shallows := s.req.shallows ++ req.shallows } } := fun _ =>
    foldlM_put _ (fun (s : State) ids =>
      { s with req := { s.req with shallows := s.req.shallows ++ ids } })
      (P := fun _ => True) (by simp) (by simp) (fun id hid _ _ =>
        ⟨line_shallow (h.shallows id hid), trivial⟩) trivial
  have hdeepen : ∀ s, (req.deepen.map fun depth => str "deepen " ++ natStr depth).toList.foldlM
      (fun s l => line algo s (toUtf8 l)) s =
        .ok { s with req := { s.req with deepen := req.deepen.or s.req.deepen } } :=
    foldlM_optional _ (fun (s : State) depth =>
      { s with req := { s.req with deepen := depth.or s.req.deepen } })
      (fun _ => rfl) fun depth hdepth _ => line_deepen (h.deepen depth hdepth)
  have hsince : ∀ s, (req.deepenSince.map fun since =>
    str "deepen-since " ++ intStr since).toList.foldlM
      (fun s l => line algo s (toUtf8 l)) s =
        .ok { s with req := { s.req with deepenSince := req.deepenSince.or s.req.deepenSince } } :=
    foldlM_optional _ (fun (s : State) since =>
      { s with req := { s.req with deepenSince := since.or s.req.deepenSince } })
      (fun _ => rfl) fun since hsince _ => line_deepenSince (h.deepenSince since hsince)
  have hnot : ∀ s, (req.deepenNot.map fun name => str "deepen-not " ++ name).foldlM
      (fun s l => line algo s (toUtf8 l)) s =
        .ok { s with req := { s.req with deepenNot := s.req.deepenNot ++ req.deepenNot } } :=
          fun _ =>
    foldlM_put _ (fun (s : State) names =>
      { s with req := { s.req with deepenNot := s.req.deepenNot ++ names } })
      (P := fun _ => True) (by simp) (by simp)
      (fun name hname _ _ => ⟨line_deepenNot (h.deepenNot name hname), trivial⟩) trivial
  have hfilter : ∀ s, (req.filter.map fun filter => str "filter " ++ filter).toList.foldlM
      (fun s l => line algo s (toUtf8 l)) s =
        .ok { s with req := { s.req with filter := req.filter.or s.req.filter } } :=
    foldlM_optional _ (fun (s : State) filter =>
      { s with req := { s.req with filter := filter.or s.req.filter } })
      (fun _ => rfl) fun filter hfilter _ => line_filter (h.filter filter hfilter)
  simp only [limitTexts, List.foldlM_append, hshallows, hdeepen, hsince, hnot, hfilter,
    except_ok_bind]

/-- The texts of the request's lines before the flush. -/
def wantTexts (req : FetchRequest) (want : ObjectId) (wants : List ObjectId) : List Str :=
  req.firstText want :: wants.map (fun id => str "want " ++ id.toHex) ++ req.limitTexts

/-- The lines before the flush are the request but for what the client has. -/
theorem foldlM_wantTexts (h : req.Readable algo) {want : ObjectId} {wants : List ObjectId}
    (hwants : req.wants = want :: wants) :
    (req.wantTexts want wants).foldlM (fun s l => line algo s (toUtf8 l)) ⟨default, true⟩ =
      .ok ⟨{ req.received false with haves := [] }, false⟩ := by
  have hwant : want.algo = algo := h.wants want (by rw [hwants]; exact List.mem_cons_self)
  have hmore : ∀ s : State, s.firstWant = false →
    (wants.map fun id => str "want " ++ id.toHex).foldlM
      (fun s l => line algo s (toUtf8 l)) s =
        .ok { s with req := { s.req with wants := s.req.wants ++ wants } } := fun s hs =>
    foldlM_put _ (fun (s : State) ids =>
      { s with req := { s.req with wants := s.req.wants ++ ids } })
      (P := fun s => s.firstWant = false) (by simp) (by simp)
      (fun id hid s hs =>
        ⟨line_want (h.wants id (by rw [hwants]; exact List.mem_cons_of_mem want hid)) hs, hs⟩) hs
  rw [wantTexts, List.cons_append, List.foldlM_cons, line_firstText h.capabilities hwant,
    except_ok_bind,
    List.foldlM_append, hmore _ rfl, except_ok_bind, foldlM_limitTexts h, received, hwants]
  simp only [default, Option.or_none, List.nil_append, List.cons_append]

/-- The lines of a request, up to its end, are read as the request. -/
theorem foldLines_opening (h : req.Readable algo) {want : ObjectId} {wants : List ObjectId}
    (hwants : req.wants = want :: wants) (packets : List Packet) :
    foldLines (fun _ => false) (line algo) ⟨default, true⟩
        (((req.wantTexts want wants).map (· ++ ['\n'])).map linePacket ++ .flush ::
          (((req.haves.map fun id => str "have " ++ id.toHex).map (· ++ ['\n'])).map
            linePacket ++ packets)) =
      foldLines (fun _ => false) (line algo) ⟨req.received false, false⟩ packets := by
  have hhaves : ∀ s, (req.haves.map fun id => str "have " ++ id.toHex).foldlM
      (fun s l => line algo s (toUtf8 l)) s =
        .ok { s with req := { s.req with haves := s.req.haves ++ req.haves } } := fun _ =>
    foldlM_put _ (fun (s : State) ids =>
      { s with req := { s.req with haves := s.req.haves ++ ids } })
      (P := fun _ => True) (by simp) (by simp) (fun id hid _ _ =>
        ⟨line_have (h.haves id hid), trivial⟩) trivial
  rw [foldLines_append, foldlM_wantTexts h hwants, except_ok_bind]
  show foldLines _ _ _ (((req.haves.map _).map _).map linePacket ++ packets) = _
  rw [foldLines_append, hhaves]
  rfl

theorem wantLines_append {want : ObjectId} {wants : List ObjectId}
    (hwants : req.wants = want :: wants) :
    req.wantLines ++ req.limitLines = (req.wantTexts want wants).map (· ++ ['\n']) := by
  rw [wantLines, hwants, limitLines_eq, wantTexts, List.map_append, List.map_cons,
    ← firstWantLine_eq, ← idLines_eq]

/-- The lines that must fit. -/
def texts (req : FetchRequest) : List Str :=
  req.wantLines ++ req.limitLines ++ idLines (str "have ") req.haves

/-- With an end, a request is encoded just when its lines fit, and the end is read after it. -/
theorem encodePrefix_read (h : req.Readable algo) (hwants : req.wants ≠ []) {ending : Bytes}
    {packets : List Packet} (hending : decodeAll ending = .ok packets) :
    ((∃ out, req.encodePrefix.map (· ++ ending) = .ok out) ↔ ∀ l ∈ req.texts, Fits l) ∧
    ∀ out, req.encodePrefix.map (· ++ ending) = .ok out → (decodeAll out >>= parse algo) =
      (foldLines (fun _ => false) (line algo) ⟨req.received false, false⟩ packets).map (·.req) := by
  obtain ⟨want, wants, hcons⟩ := List.exists_cons_of_ne_nil hwants
  rw [encodePrefix, if_neg (by simpa using hwants)]
  refine ⟨?_, fun out hout => ?_⟩
  · rw [texts, List.forall_mem_append, ← encodeLines_ok_iff, ← encodeLines_ok_iff]
    constructor
    · rintro ⟨out, hout⟩
      obtain ⟨out, hout, -⟩ := except_map_ok.mp hout
      obtain ⟨first, hfirst, hout⟩ := except_bind_ok.mp hout
      obtain ⟨haves, hhaves, -⟩ := except_bind_ok.mp hout
      exact ⟨⟨first, hfirst⟩, haves, hhaves⟩
    · rintro ⟨⟨first, hfirst⟩, haves, hhaves⟩
      rw [hfirst, hhaves]
      exact ⟨_, rfl⟩
  · obtain ⟨body, hbody, rfl⟩ := except_map_ok.mp hout
    obtain ⟨first, hfirst, hbody⟩ := except_bind_ok.mp hbody
    obtain ⟨haves, hhaves, hbody⟩ := except_bind_ok.mp hbody
    cases hbody
    have hflush : PktLine.encode .flush = .ok flushPkt := rfl
    rw [List.append_assoc, List.append_assoc, decodeAll_encodeLines hfirst, decodeAll_encode hflush,
      decodeAll_encodeLines hhaves, hending, wantLines_append hcons, idLines_eq]
    exact congrArg (Except.map (·.req)) (foldLines_opening h hcons packets)

/-- **A request is read back**: it is encoded just when its lines fit, and what is read then is
`received`, with the pack asked for or not. -/
theorem parse_encode (h : req.Readable algo) (hwants : req.wants ≠ []) :
    (((∃ out, req.encode = .ok out) ↔ ∀ l ∈ req.texts, Fits l) ∧
      ∀ out, req.encode = .ok out → (decodeAll out >>= parse algo) = .ok (req.received true)) ∧
    (((∃ out, req.encodeNegotiation = .ok out) ↔ ∀ l ∈ req.texts, Fits l) ∧
      ∀ out, req.encodeNegotiation = .ok out → (decodeAll out >>= parse algo) =
        .ok (req.received false)) := by
  constructor
  · obtain ⟨done, hdone⟩ : ∃ done, PktLine.encode (linePacket (str "done" ++ ['\n'])) =
      .ok done := ⟨_, rfl⟩
    have hencode : req.encode = req.encodePrefix.map (· ++ done) := by
      rw [encode, show encodeLine (str "done\n") = .ok done from hdone]
      cases req.encodePrefix <;> rfl
    obtain ⟨hiff, hread⟩ := encodePrefix_read h hwants (decodeAll_one hdone)
    rw [hencode]
    refine ⟨hiff, fun out hout => ?_⟩
    rw [hread out hout, foldLines_cons, line_done]
    rfl
  · have hencode : req.encodeNegotiation = req.encodePrefix.map (· ++ flushPkt) := by
      rw [encodeNegotiation]
      cases req.encodePrefix <;> rfl
    obtain ⟨hiff, hread⟩ := encodePrefix_read h hwants (decodeAll_one (p := .flush) rfl)
    rw [hencode]
    refine ⟨hiff, fun out hout => ?_⟩
    rw [hread out hout]
    rfl

/-- A deepening fetch with a filter. -/
theorem parse_encode_deepen : ∃ out,
    { default with
      wants := [ObjectId.zero .sha1], haves := [ObjectId.zero .sha1], shallows :=
        [ObjectId.zero .sha1]
      capabilities := ⟨[(str "agent", some (str "git"))]⟩
      deepen := some 3, deepenSince := some (-1), deepenNot := [str "v1"], deepenRelative := true
      filter := some (str "blob:none") }.encode = .ok out ∧
    (decodeAll out >>= parse .sha1) = .ok
      { wants := [ObjectId.zero .sha1], haves := [ObjectId.zero .sha1],
        shallows := [ObjectId.zero .sha1]
        capabilities := ⟨[(str "agent", some (str "git")), (str "deepen-relative", none)]⟩
        deepen := some 3, deepenSince := some (-1), deepenNot := [str "v1"], deepenRelative := true
        filter := some (str "blob:none"), done := true } := by
  obtain ⟨⟨hiff, hread⟩, -⟩ := @parse_encode .sha1
    { default with
      wants := [ObjectId.zero .sha1], haves := [ObjectId.zero .sha1], shallows :=
        [ObjectId.zero .sha1]
      capabilities := ⟨[(str "agent", some (str "git"))]⟩
      deepen := some 3, deepenSince := some (-1), deepenNot := [str "v1"], deepenRelative := true
      filter := some (str "blob:none") }
    ⟨by decide, by decide, by decide, by decide, by decide, by decide, by decide, by decide⟩
      (by decide)
  obtain ⟨out, hout⟩ := hiff.mpr (by decide)
  refine ⟨out, hout, (hread out hout).trans ?_⟩
  decide

/-- A capability without a name is not read, one that deepens is read as the flag, and a line
that is too long is not sent. -/
theorem parse_encode_strict :
    ({ default with wants := [ObjectId.zero .sha1], capabilities := ⟨[([], none)]⟩ }.encode >>=
        fun out => decodeAll out >>= parse .sha1) =
      .ok { default with wants := [ObjectId.zero .sha1], done := true } ∧
    ({ default with
        wants := [ObjectId.zero .sha1], capabilities :=
          ⟨[(str "deepen-relative", none)]⟩ }.encode >>=
        fun out => decodeAll out >>= parse .sha1) =
      .ok { default with
        wants := [ObjectId.zero .sha1], capabilities :=
          ⟨[(str "deepen-relative", none)]⟩, done := true
        deepenRelative := true } ∧
    ∀ n, maxPktlineLen ≤ n → ¬ ∃ out, { default with
      wants := [ObjectId.zero .sha1], filter := some (List.replicate n 'x') }.encode = .ok out := by
  refine ⟨by decide, by decide, ?_⟩
  rintro n hn ⟨out, hout⟩
  obtain ⟨first, hfirst, -⟩ := except_bind_ok.mp hout
  obtain ⟨lines, hlines, -⟩ := except_bind_ok.mp hfirst
  have hfits := encodeLines_ok_iff.mp ⟨lines, hlines⟩
    (str "filter " ++ List.replicate n 'x' ++ ['\n'])
      (List.mem_append_right _ (List.mem_append_right _ List.mem_cons_self))
  exact absurd hfits (not_fits_long hn _ _)

end

end FetchRequest
end Puregit
