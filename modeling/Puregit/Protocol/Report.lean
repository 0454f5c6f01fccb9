import Puregit.Protocol.RoundTrip

/-! # Push reports

A report is a line that says whether the pack was unpacked and a line for each ref; in its second
version a ref's line is followed by lines for its options.  The parser takes of a refused ref the
name before the first space and the reason after it, and leaves out what it does not know: a report
is read back just when nothing in it is spelled like something else,
`DetailedReport.parseV2_packets_iff`, and a parser of the first version reads the second without its
options, `plain_of_parseV2`. -/
namespace Puregit
open PktLine

/-! ## A bounded number of packets -/

theorem decodeGo_bounded {fuel cap : Nat} {input : Bytes} {packets : List Packet}
    (h : decodeGo fuel none input = .ok packets) : decodeGo fuel (some cap) input =
      if packets.length ≤ cap then .ok packets
        else .error (.protocol (str "pkt-line: too many packets")) := by
  induction fuel generalizing cap input packets with
  | zero =>
    cases h
    rfl
  | succ fuel ih =>
    rw [decodeGo] at h ⊢
    by_cases hempty : input.isEmpty = true
    · rw [if_pos hempty] at h ⊢
      cases h
      rfl
    · rw [if_neg hempty] at h ⊢
      cases hd : decode input with
      | error e =>
        rw [hd] at h
        cases h
      | ok r =>
        rw [hd] at h
        cases r with
        | none => cases h
        | some r =>
          obtain ⟨p, n⟩ := r
          simp only [reduceCtorEq, if_false, Option.map_none] at h
          obtain ⟨rest, hrest, rfl⟩ := except_map_ok.mp h
          simp only [Option.map_some, Option.some.injEq]
          by_cases hcap : cap = 0
          · rw [if_pos hcap, hcap, if_neg (by simp)]
          · rw [if_neg hcap, ih hrest, List.length_cons]
            by_cases hlen : rest.length ≤ cap - 1
            · rw [if_pos hlen, if_pos (by omega)]
              rfl
            · rw [if_neg hlen, if_neg (by omega)]
              rfl

theorem decodeAllBounded_of_decodeAll {input : Bytes} {packets : List Packet}
    (h : decodeAll input = .ok packets) (cap : Nat) : decodeAllBounded input cap =
      if packets.length ≤ cap then .ok packets
        else .error (.protocol (str "pkt-line: too many packets")) :=
  decodeGo_bounded h

/-! ## Parsing -/

namespace ReportStatus

/-- The status of what comes after `ng `. -/
def refused (rest : Str) : RefStatus :=
  match splitOnce ' ' rest with
  | some (name, reason) => ⟨name, .error reason⟩
  | none => ⟨rest, .error []⟩

/-- What a line is about. -/
inductive Line where
  | unpack (result : Except Str Unit)
  | status (r : RefStatus)
  | other

def Line.ofText (text : Str) : Line :=
  match stripPrefix? (str "unpack ") text with
  | some rest => .unpack (if rest = str "ok" then .ok () else .error rest)
  | none =>
    match stripPrefix? (str "ok ") text with
    | some name => .status ⟨name, .ok ()⟩
    | none =>
      match stripPrefix? (str "ng ") text with
      | some rest => .status (refused rest)
      | none => .other

/-- Reads one line. -/
def line (s : ReportStatus) (l : Bytes) : Except Error ReportStatus := do
  let text ← utf8OrProtocol "report-status: non-utf8" l
  match Line.ofText text with
  | .unpack result => .ok { s with unpack := result }
  | .status r => .ok { s with refs := s.refs ++ [r] }
  | .other => .ok s

/-- Parses a report from all its packets. -/
def parse (packets : List Packet) : Except Error ReportStatus :=
  foldLines (fun _ => false) line ⟨.error (str "no unpack status"), []⟩ packets

/-- Whether the pack was unpacked and no ref refused. -/
def isOk (r : ReportStatus) : Bool := r.unpack.toBool && r.refs.all fun s => s.result.toBool

end ReportStatus

/-- A report of the second version: a ref's status has options, names and values. -/
structure DetailedReport where
  unpack : Except Str Unit
  refs : List (RefStatus × List (Str × Str))
  deriving DecidableEq

namespace DetailedReport
open ReportStatus

/-- The report without the options. -/
def plain (r : DetailedReport) : ReportStatus := ⟨r.unpack, r.refs.map Prod.fst⟩

/-- The text of an option; one without a value is its name alone. -/
def optionText (o : Str × Str) : Str := if o.2.isEmpty then o.1 else o.1 ++ ' ' :: o.2

def optionLine (o : Str × Str) : Str := str "option " ++ optionText o ++ ['\n']

/-- The lines of a ref. -/
def refLines (r : RefStatus × List (Str × Str)) : List Str := refLine r.1 :: r.2.map optionLine

/-- Encodes a report of the second version, ended by a flush. -/
def encodeV2 (r : DetailedReport) : Except Error Bytes := do
  let lines ← encodeLines (unpackLine r.unpack :: r.refs.flatMap refLines)
  .ok (lines ++ flushPkt)

/-- The option that a text is of. -/
def readOption (text : Str) : Str × Str := (splitOnce ' ' text).getD (text, [])

/-- Puts an option to the last status. -/
def putOption (s : DetailedReport) (o : Str × Str) : Except Error DetailedReport :=
  match s.refs.getLast? with
  | some last => .ok { s with refs := s.refs.dropLast ++ [(last.1, last.2 ++ [o])] }
  | none => .error (.protocol (str "report-status-v2: option before any ref status"))

/-- Reads one line. -/
def line (s : DetailedReport) (l : Bytes) : Except Error DetailedReport := do
  let text ← utf8OrProtocol "report-status: non-utf8" l
  match Line.ofText text with
  | .unpack result => .ok { s with unpack := result }
  | .status r => .ok { s with refs := s.refs ++ [(r, [])] }
  | .other =>
    match stripPrefix? (str "option ") text with
    | some text => s.putOption (readOption text)
    | none => .ok s

/-- Parses a report of the second version from all its packets. -/
def parseV2 (packets : List Packet) : Except Error DetailedReport :=
  foldLines (fun _ => false) line ⟨.error (str "no unpack status"), []⟩ packets

end DetailedReport

/-! ## The first version of the second -/

namespace DetailedReport
open ReportStatus

theorem plain_of_line {s s' : DetailedReport} {l : Bytes} (h : s.line l = .ok s') :
    ReportStatus.line s.plain l = .ok s'.plain := by
  obtain ⟨text, htext, h⟩ := except_bind_ok.mp h
  rw [ReportStatus.line, htext, except_ok_bind]
  cases hline : Line.ofText text with
  | unpack result =>
    rw [hline] at h
    cases h
    rfl
  | status r =>
    rw [hline] at h
    cases h
    rw [plain, plain, List.map_append]
    rfl
  | other =>
    rw [hline] at h
    simp only at h ⊢
    cases hoption : stripPrefix? (str "option ") text with
    | none =>
      rw [hoption] at h
      cases h
      rfl
    | some option =>
      rw [hoption] at h
      simp only [putOption] at h
      cases hlast : s.refs.getLast? with
      | none =>
        rw [hlast] at h
        cases h
      | some last =>
        rw [hlast] at h
        cases h
        -- the options of the last status are not in the plain report
        have hrefs : s.refs = s.refs.dropLast ++ [last] :=
          (List.dropLast_append_getLast? last hlast).symm
        have hplain : s.refs.map Prod.fst = s.refs.dropLast.map Prod.fst ++ [last.1] := by
          rw [← List.map_singleton, ← List.map_append, ← hrefs]
        rw [plain, plain, hplain, List.map_append]
        rfl

/-- **A parser of the first version reads the same without the options**, of any packets. -/
theorem plain_of_parseV2 {packets : List Packet} {r : DetailedReport}
    (h : parseV2 packets = .ok r) :
    ReportStatus.parse packets = .ok r.plain := by
  have hfold : ∀ (packets : List Packet) (s : DetailedReport),
    foldLines (fun _ => false) line s packets = .ok r →
      foldLines (fun _ => false) ReportStatus.line s.plain packets = .ok r.plain := by
    intro packets
    induction packets with
    | nil =>
      intro s h
      cases h
      rfl
    | cons p packets ih =>
      intro s h
      unfold foldLines at h ⊢
      rw [if_neg Bool.false_ne_true] at h ⊢
      cases p with
      | data d =>
        obtain ⟨s', hs', h⟩ := except_bind_ok.mp h
        exact except_bind_ok.mpr ⟨s'.plain, plain_of_line hs', ih s' h⟩
      | flush | delim | responseEnd => exact ih s h
  exact hfold packets _ h

end DetailedReport

/-! ## What is read of a report -/

namespace ReportStatus

/-- The text of the unpack line. -/
def unpackText : Except Str Unit → Str
  | .ok _ => str "unpack ok"
  | .error e => str "unpack " ++ e

/-- The text of a ref's line. -/
def refText (r : RefStatus) : Str :=
  match r.result with
  | .ok _ => str "ok " ++ r.name
  | .error reason => str "ng " ++ r.name ++ ' ' :: reason

theorem unpackLine_eq (result : Except Str Unit) :
    unpackLine result = unpackText result ++ ['\n'] := by
  cases result with
  | ok _ => rfl
  | error e => rfl

theorem refLine_eq (r : RefStatus) : refLine r = refText r ++ ['\n'] := by
  rw [refLine, refText]
  cases r.result with
  | ok _ => rfl
  | error reason => rfl

/-- What is read of an unpack result: an error called `ok` is none. -/
def unpackRead : Except Str Unit → Except Str Unit
  | .ok _ => .ok ()
  | .error e => if e = str "ok" then .ok () else .error e

/-- What is read of a status: the name of a refused ref ends at its first space. -/
def statusRead (r : RefStatus) : RefStatus :=
  match r.result with
  | .ok _ => r
  | .error reason => refused (r.name ++ ' ' :: reason)

theorem ofText_unpackText (result : Except Str Unit) :
    Line.ofText (unpackText result) = .unpack (unpackRead result) := by
  cases result with
  | ok _ => rfl
  | error e => rw [Line.ofText, unpackText, stripPrefix?_eq_some.mpr rfl, unpackRead]

theorem ofText_refText (r : RefStatus) : Line.ofText (refText r) = .status (statusRead r) := by
  obtain ⟨name, result⟩ := r
  cases result with
  | ok _ =>
    have hunpack : stripPrefix? (str "unpack ") (str "ok " ++ name) = none := rfl
    rw [refText, Line.ofText, hunpack, stripPrefix?_eq_some.mpr rfl]
    rfl
  | error reason =>
    have hunpack : stripPrefix? (str "unpack ") (str "ng " ++ name ++ ' ' :: reason) = none := rfl
    have hok : stripPrefix? (str "ok ") (str "ng " ++ name ++ ' ' :: reason) = none := rfl
    have hng : stripPrefix? (str "ng ") (str "ng " ++ name ++ ' ' :: reason) =
        some (name ++ ' ' :: reason) :=
      stripPrefix?_eq_some.mpr (List.append_assoc ..)
    show Line.ofText (str "ng " ++ name ++ ' ' :: reason) = _
    rw [Line.ofText, hunpack, hok, hng]
    rfl

theorem refused_append {name reason : Str} (h : ' ' ∉ name) :
    refused (name ++ ' ' :: reason) = ⟨name, .error reason⟩ := by
  rw [refused, splitOnce_eq_some.mpr ⟨rfl, h⟩]

/-- A name that is read has no space, unless the text has none. -/
theorem space_notMem_refused {rest : Str} (h : ' ' ∈ rest) : ' ' ∉ (refused rest).name := by
  rw [refused]
  cases hsplit : splitOnce ' ' rest with
  | none => exact absurd h (splitOnce_eq_none.mp hsplit)
  | some parts => exact (splitOnce_eq_some.mp hsplit).2

/-- A status is read back unless it is a refused ref with a space in its name. -/
theorem statusRead_eq_self {r : RefStatus} :
    statusRead r = r ↔ r.result = .ok () ∨ ' ' ∉ r.name := by
  obtain ⟨name, result⟩ := r
  cases result with
  | ok _ => exact iff_of_true rfl (Or.inl rfl)
  | error reason =>
    constructor
    · intro h
      right
      have hname : ' ' ∉ (refused (name ++ ' ' :: reason)).name := space_notMem_refused (by simp)
      rw [show refused (name ++ ' ' :: reason) = ⟨name, .error reason⟩ from h] at hname
      exact hname
    · rintro (h | h)
      · cases h
      · exact refused_append h

theorem unpackRead_eq_self {result : Except Str Unit} :
    unpackRead result = result ↔ result ≠ .error (str "ok") := by
  cases result with
  | ok _ => exact iff_of_true rfl (by simp)
  | error e =>
    by_cases h : e = str "ok"
    · rw [unpackRead, if_pos h, h]
      simp
    · rw [unpackRead, if_neg h]
      simp [h]

end ReportStatus

namespace DetailedReport
open ReportStatus

/-- What is read of an option: its name ends at the first space of its text. -/
def optionRead (o : Str × Str) : Str × Str := readOption (optionText o)

theorem optionRead_eq_self {o : Str × Str} : optionRead o = o ↔ ' ' ∉ o.1 := by
  obtain ⟨key, value⟩ := o
  rw [optionRead, readOption, optionText]
  constructor
  · intro h hspace
    have hmem : ' ' ∈ (if value.isEmpty then key else key ++ ' ' :: value) := by
      split
      · exact hspace
      · exact List.mem_append_left _ hspace
    cases hsplit : splitOnce ' ' (if value.isEmpty then key else key ++ ' ' :: value) with
    | none => exact splitOnce_eq_none.mp hsplit hmem
    | some parts =>
      rw [hsplit, Option.getD_some] at h
      rw [h] at hsplit
      exact (splitOnce_eq_some.mp hsplit).2 hspace
  · intro h
    by_cases hempty : value.isEmpty = true
    · rw [if_pos hempty, splitOnce_eq_none.mpr h, List.isEmpty_iff.mp hempty]
      rfl
    · rw [if_neg hempty, splitOnce_eq_some.mpr ⟨rfl, h⟩]
      rfl

/-- The texts of a ref's lines. -/
def refTexts (r : RefStatus × List (Str × Str)) : List Str :=
  refText r.1 :: r.2.map fun o => str "option " ++ optionText o

/-- What is read of a ref. -/
def refRead (r : RefStatus × List (Str × Str)) : RefStatus × List (Str × Str) :=
  (statusRead r.1, r.2.map optionRead)

/-- What is read of a report. -/
def asRead (r : DetailedReport) : DetailedReport := ⟨unpackRead r.unpack, r.refs.map refRead⟩

/-- The texts of a report's lines. -/
def texts (r : DetailedReport) : List Str := unpackText r.unpack :: r.refs.flatMap refTexts

theorem refLines_eq (r : RefStatus × List (Str × Str)) :
    refLines r = (refTexts r).map (· ++ ['\n']) := by
  rw [refLines, refTexts, List.map_cons, List.map_map, refLine_eq]
  rfl

theorem encodeV2_eq (r : DetailedReport) :
    r.encodeV2 = (encodeLines (r.texts.map (· ++ ['\n']))).map (· ++ flushPkt) := by
  have hrefs : r.refs.flatMap refLines = (r.refs.flatMap refTexts).map (· ++ ['\n']) := by
    rw [List.map_flatMap]
    exact List.flatMap_congr fun ref _ => refLines_eq ref
  rw [encodeV2, texts, List.map_cons, unpackLine_eq, hrefs]
  rfl

theorem line_option (s : DetailedReport) (last : RefStatus × List (Str × Str)) (o : Str × Str) :
    line ⟨s.unpack, s.refs ++ [last]⟩ (toUtf8 (str "option " ++ optionText o)) =
      .ok ⟨s.unpack, s.refs ++ [(last.1, last.2 ++ [optionRead o])]⟩ := by
  have hother : Line.ofText (str "option " ++ optionText o) = .other := rfl
  rw [line, utf8OrProtocol, fromUtf8_toUtf8]
  simp only [except_ok_bind, hother, stripPrefix?_eq_some.mpr rfl, putOption, List.getLast?_concat,
    List.dropLast_concat]
  rfl

theorem foldlM_options (s : DetailedReport) (last : RefStatus × List (Str × Str))
    (options : List (Str × Str)) :
    (options.map fun o => str "option " ++ optionText o).foldlM (fun s l => line s (toUtf8 l))
        ⟨s.unpack, s.refs ++ [last]⟩ =
      .ok ⟨s.unpack, s.refs ++ [(last.1, last.2 ++ options.map optionRead)]⟩ := by
  induction options generalizing last with
  | nil =>
    rw [List.map_nil, List.map_nil, List.append_nil]
    rfl
  | cons o options ih =>
    rw [List.map_cons, List.foldlM_cons, line_option, except_ok_bind, ih, List.map_cons,
      List.append_assoc]
    rfl

theorem foldlM_refTexts (s : DetailedReport) (r : RefStatus × List (Str × Str)) :
    (refTexts r).foldlM (fun s l => line s (toUtf8 l)) s =
      .ok ⟨s.unpack, s.refs ++ [refRead r]⟩ := by
  have hstatus : line s (toUtf8 (refText r.1)) =
      .ok ⟨s.unpack, s.refs ++ [(statusRead r.1, [])]⟩ := by
    rw [line, utf8OrProtocol, fromUtf8_toUtf8]
    simp only [except_ok_bind, ofText_refText]
  rw [refTexts, List.foldlM_cons, hstatus, except_ok_bind, foldlM_options]
  rfl

/-- The texts of a report are read as what is read of it. -/
theorem foldlM_texts (r : DetailedReport) (s : DetailedReport) (hs : s.refs = []) :
    r.texts.foldlM (fun s l => line s (toUtf8 l)) s = .ok r.asRead := by
  have hunpack : line s (toUtf8 (unpackText r.unpack)) = .ok ⟨unpackRead r.unpack, []⟩ := by
    rw [line, utf8OrProtocol, fromUtf8_toUtf8]
    simp only [except_ok_bind, ofText_unpackText, hs]
  have hrefs : ∀ (refs : List (RefStatus × List (Str × Str))) (s : DetailedReport),
      (refs.flatMap refTexts).foldlM (fun s l => line s (toUtf8 l)) s =
        .ok ⟨s.unpack, s.refs ++ refs.map refRead⟩ := by
    intro refs
    induction refs with
    | nil =>
      intro s
      rw [List.map_nil, List.append_nil]
      rfl
    | cons ref refs ih =>
      intro s
      rw [List.flatMap_cons, List.foldlM_append, foldlM_refTexts, except_ok_bind, ih, List.map_cons,
        List.append_assoc]
      rfl
  rw [texts, List.foldlM_cons, hunpack, except_ok_bind, hrefs]
  rfl

/-- The packets of a report. -/
def packets (r : DetailedReport) : List Packet :=
  (r.texts.map (· ++ ['\n'])).map linePacket ++ [.flush]

theorem parseV2_packets (r : DetailedReport) : parseV2 r.packets = .ok r.asRead := by
  rw [parseV2, packets, foldLines_append, foldlM_texts _ _ rfl]
  rfl

/-- A client takes the packets of an encoded report, if they are not too many. -/
theorem decode_encodeV2 {r : DetailedReport} {out : Bytes} (h : r.encodeV2 = .ok out) (cap : Nat) :
    decodeAllBounded out cap =
      if r.texts.length < cap then .ok r.packets
        else .error (.protocol (str "pkt-line: too many packets")) := by
  rw [encodeV2_eq] at h
  obtain ⟨lines, hlines, rfl⟩ := except_map_ok.mp h
  have hlen : r.packets.length = r.texts.length + 1 := by
    rw [packets, List.length_append, List.length_map, List.length_map, List.length_singleton]
  rw [decodeAllBounded_of_decodeAll (decodeAll_message hlines), ← packets, hlen]
  rfl

theorem map_eq_self {α : Type} {f : α → α} {xs : List α} : xs.map f = xs ↔ ∀ x ∈ xs, f x = x := by
  conv_lhs => rw [← List.map_id xs, List.map_map]
  exact List.map_inj_left

/-- What a client reads of a report is the report. -/
def ReadBack (r : DetailedReport) : Prop :=
  ∀ out, r.encodeV2 = .ok out → (decodeAllBounded out maxPackets >>= parseV2) = .ok r

/-- **A report is read back** just when it is not sent, or its lines are not too many, no error of
the unpacking is called `ok`, and no refused ref and no option has a space in its name. -/
theorem parseV2_packets_iff {r : DetailedReport} :
    r.ReadBack ↔ (∃ l ∈ r.texts, ¬Fits (l ++ ['\n'])) ∨
    r.texts.length < maxPackets ∧ r.unpack ≠ .error (str "ok") ∧
      ∀ ref ∈ r.refs, (ref.1.result = .ok () ∨ ' ' ∉ ref.1.name) ∧ ∀ o ∈ ref.2, ' ' ∉ o.1 := by
  have hsent : (∃ out, r.encodeV2 = .ok out) ↔ ∀ l ∈ r.texts, Fits (l ++ ['\n']) := by
    rw [encodeV2_eq, ← List.forall_mem_map (f := (· ++ ['\n'])), ← encodeLines_ok_iff]
    constructor
    · rintro ⟨out, hout⟩
      obtain ⟨lines, hlines, -⟩ := except_map_ok.mp hout
      exact ⟨lines, hlines⟩
    · rintro ⟨lines, hlines⟩
      exact ⟨_, except_map_ok.mpr ⟨lines, hlines, rfl⟩⟩
  have hrefs : r.refs.map refRead = r.refs ↔
      ∀ ref ∈ r.refs, (ref.1.result = .ok () ∨ ' ' ∉ ref.1.name) ∧ ∀ o ∈ ref.2, ' ' ∉ o.1 := by
    have hone : ∀ ref, refRead ref = ref ↔
        (ref.1.result = .ok () ∨ ' ' ∉ ref.1.name) ∧ ∀ o ∈ ref.2, ' ' ∉ o.1 := by
      intro ref
      rw [refRead, Prod.ext_iff, ← statusRead_eq_self]
      refine and_congr_right fun _ => ?_
      rw [map_eq_self]
      exact forall₂_congr fun o _ => optionRead_eq_self
    rw [map_eq_self]
    exact forall₂_congr fun ref _ => hone ref
  have hsame : r.asRead = r ↔ r.unpack ≠ .error (str "ok") ∧
      ∀ ref ∈ r.refs, (ref.1.result = .ok () ∨ ' ' ∉ ref.1.name) ∧ ∀ o ∈ ref.2, ' ' ∉ o.1 := by
    obtain ⟨unpack, refs⟩ := r
    rw [asRead, DetailedReport.mk.injEq, unpackRead_eq_self, hrefs]
  rw [← hsame]
  constructor
  · intro h
    by_cases hfits : ∀ l ∈ r.texts, Fits (l ++ ['\n'])
    · obtain ⟨out, hout⟩ := hsent.mpr hfits
      have hread := h out hout
      rw [decode_encodeV2 hout] at hread
      by_cases hcap : r.texts.length < maxPackets
      · rw [if_pos hcap, except_ok_bind, parseV2_packets] at hread
        exact Or.inr ⟨hcap, Except.ok.inj hread⟩
      · rw [if_neg hcap] at hread
        cases hread
    · push Not at hfits
      exact Or.inl hfits
  · intro h out hout
    rcases h with ⟨l, hl, hfits⟩ | ⟨hcap, hself⟩
    · exact absurd (hsent.mp ⟨out, hout⟩ l hl) hfits
    · rw [decode_encodeV2 hout, if_pos hcap, except_ok_bind, parseV2_packets, hself]

end DetailedReport

namespace ReportStatus

/-- A report as one of the second version without options. -/
def detailed (r : ReportStatus) : DetailedReport := ⟨r.unpack, r.refs.map fun s => (s, [])⟩

theorem encode_eq (r : ReportStatus) : r.encode = r.detailed.encodeV2 := by
  have hrefs : r.refs.map refLine = (r.refs.map fun s =>
    ((s, []) : RefStatus × List (Str × Str))).flatMap
      DetailedReport.refLines := by
    rw [List.flatMap_map]
    exact List.map_eq_flatMap
  rw [encode, DetailedReport.encodeV2, detailed, ← hrefs]

/-- What a client reads of a report of the first version. -/
theorem parse_encoded {r r' : ReportStatus} {out : Bytes} (h : r.encode = .ok out)
    (hread : (decodeAllBounded out maxPackets >>= parse) = .ok r') :
    r' = ⟨unpackRead r.unpack, r.refs.map statusRead⟩ := by
  have hparse := DetailedReport.plain_of_parseV2 (DetailedReport.parseV2_packets r.detailed)
  rw [encode_eq] at h
  rw [DetailedReport.decode_encodeV2 h] at hread
  by_cases hcap : r.detailed.texts.length < maxPackets
  · rw [if_pos hcap, except_ok_bind, hparse] at hread
    cases hread
    rw [DetailedReport.plain, DetailedReport.asRead, detailed, List.map_map, List.map_map]
    rfl
  · rw [if_neg hcap] at hread
    cases hread

end ReportStatus
end Puregit
