import Mathlib.Data.Bool.AllAny
import Puregit.Client.Response
import Puregit.Protocol.RoundTrip

/-! # The sections of a v2 response

A fetch response is a flat stream of packets: sections of lines, each under a header and ended
by a delimiter, and the pack behind its own header.  No line of a section is taken for a header
or for a line of another one, so a client reads the boundary, the URIs and the pack that were
written, whichever sections there are: `parse_encodeFetchSections`.
-/
namespace Puregit.V2
open PktLine Client

/-- Framed bytes decode to their packets. -/
theorem decodeAll_framed {ps : List Packet} {out : Bytes} (h : Framed ps out) :
    decodeAll out = .ok ps := by
  induction h with
  | nil => rfl
  | cons hp _ ih =>
      rw [decodeAll_encode hp, ih]
      rfl

/-- The packets of a section. -/
def sectionPackets (present : Bool) (header : Str) (body : List Str) : List Packet :=
  if present then (header :: body).map linePacket ++ [.delim] else []

theorem sectionIf_ok_iff {present : Bool} {header : Str} {body : List Str} :
    (∃ out, sectionIf present header body = .ok out) ↔
      (present = true → ∀ l ∈ header :: body, Fits l) := by
  cases present with
  | false => exact ⟨fun _ h => (Bool.false_ne_true h).elim, fun _ => ⟨[], rfl⟩⟩
  | true =>
      rw [sectionIf, if_pos rfl, ← encodeLines_ok_iff]
      constructor
      · rintro ⟨out, hout⟩ -
        obtain ⟨lines, hlines, -⟩ := except_map_ok.mp hout
        exact ⟨lines, hlines⟩
      · intro h
        obtain ⟨lines, hlines⟩ := h rfl
        exact ⟨_, except_map_ok.mpr ⟨lines, hlines, rfl⟩⟩

theorem framed_sectionIf {present : Bool} {header : Str} {body : List Str} {out : Bytes}
    (h : sectionIf present header body = .ok out) :
    Framed (sectionPackets present header body) out := by
  cases present with
  | false =>
      cases h
      exact .nil
  | true =>
      rw [sectionIf, if_pos rfl] at h
      obtain ⟨lines, hlines, rfl⟩ := except_map_ok.mp h
      exact (Framed.lines hlines).append (.single (p := .delim) rfl)

/-! ## Reading a section -/

section
variable {algo : HashAlgo} {s : FetchResponse.State}

theorem packet_line (hpack : s.inPackfile = false) (l : Str) :
    FetchResponse.packet algo s (linePacket (l ++ ['\n'])) =
      FetchResponse.sectionLine algo s (toUtf8 l) := by
  rw [linePacket, FetchResponse.packet, if_neg (by rw [hpack]; exact Bool.false_ne_true),
    trimTrailingNewline_line]

/-- A line that starts as no keyword does says nothing. -/
theorem sectionLine_other (huris : s.inUris = false) {b : UInt8} {l : Bytes}
    (hb : b ≠ 112 ∧ b ≠ 115 ∧ b ≠ 117) :
    FetchResponse.sectionLine algo s (b :: l) = .ok s := by
  obtain ⟨hp, hs, hu⟩ := hb
  have hother : ∀ {c : UInt8} {w : Bytes}, w.head? = some c → b ≠ c →
      stripPrefix? w (b :: l) = none ∧ b :: l ≠ w := by
    intro c w hw hne
    obtain ⟨r, rfl⟩ := List.head?_eq_some_iff.mp hw
    refine ⟨if_neg fun h => hne h.symm, fun h => hne (List.cons.inj h).1⟩
  have hpack : b :: l ≠ bytes "packfile" := (hother (c := 112) rfl hp).2
  have hheader : b :: l ≠ bytes "packfile-uris" := (hother (c := 112) rfl hp).2
  have hshallow : stripPrefix? (bytes "shallow ") (b :: l) = none := (hother (c := 115) rfl hs).1
  have hunshallow : stripPrefix? (bytes "unshallow ") (b :: l) = none :=
    (hother (c := 117) rfl hu).1
  rw [FetchResponse.sectionLine, if_neg hpack, if_neg hheader,
    if_neg (by rw [huris]; exact Bool.false_ne_true)]
  simp only [hshallow, hunshallow]

/-- Lines that say nothing leave the response as it is. -/
theorem foldlM_other {lines : List Str} (h : ∀ l ∈ lines, FetchResponse.packet algo s
    (linePacket l) = .ok s) :
    (lines.map linePacket).foldlM (FetchResponse.packet algo) s = .ok s := by
  induction lines with
  | nil => rfl
  | cons l ls ih =>
      rw [List.map_cons, List.foldlM_cons, h l List.mem_cons_self, except_ok_bind]
      exact ih fun m hm => h m (List.mem_cons_of_mem l hm)

/-- A line with a space is no header. -/
theorem not_header {l : Bytes} (h : (32 : UInt8) ∈ l) :
    l ≠ bytes "packfile" ∧ l ≠ bytes "packfile-uris" := by
  constructor
  · rintro rfl
    exact absurd h (by decide)
  · rintro rfl
    exact absurd h (by decide)

/-- The id of a line of the boundary. -/
theorem sectionLine_shallow (hinUris : s.inUris = false) {id : ObjectId} (hid : id.algo = algo) :
    FetchResponse.sectionLine algo s (toUtf8 (str "shallow " ++ id.toHex)) =
      .ok { s with resp := { s.resp with shallow := s.resp.shallow ++ [id] } } := by
  have hspace : (32 : UInt8) ∈ bytes "shallow " ++ toUtf8 id.toHex :=
    List.mem_append_left _ (by decide)
  rw [toUtf8_append, show toUtf8 (str "shallow ") = bytes "shallow " from rfl,
    FetchResponse.sectionLine,
    if_neg (not_header hspace).1, if_neg (not_header hspace).2,
      if_neg (by rw [hinUris]; exact Bool.false_ne_true), stripPrefix?_eq_some.mpr rfl]
  simp only [utf8OrProtocol, fromUtf8_toUtf8, except_ok_bind, ObjectId.trim_toHex]
  rw [← hid, ObjectId.fromHex_toHex]
  rfl

theorem sectionLine_unshallow (hinUris : s.inUris = false) {id : ObjectId} (hid : id.algo = algo) :
    FetchResponse.sectionLine algo s (toUtf8 (str "unshallow " ++ id.toHex)) =
      .ok { s with resp := { s.resp with unshallow := s.resp.unshallow ++ [id] } } := by
  have hshallow : stripPrefix? (bytes "shallow ") (bytes "unshallow " ++ toUtf8 id.toHex) = none :=
    rfl
  have hspace : (32 : UInt8) ∈ bytes "unshallow " ++ toUtf8 id.toHex :=
    List.mem_append_left _ (by decide)
  rw [toUtf8_append, show toUtf8 (str "unshallow ") = bytes "unshallow " from rfl,
    FetchResponse.sectionLine,
    if_neg (not_header hspace).1, if_neg (not_header hspace).2,
      if_neg (by rw [hinUris]; exact Bool.false_ne_true)]
  simp only [hshallow, stripPrefix?_eq_some.mpr rfl, utf8OrProtocol, fromUtf8_toUtf8,
    except_ok_bind,
    ObjectId.trim_toHex]
  rw [← hid, ObjectId.fromHex_toHex]
  rfl

/-- The line of a URI. -/
theorem sectionLine_uri (hinUris : s.inUris = true) {hash uri : Str}
    (hhash : ∀ c ∈ hash, isWhitespace c = false) (huri : trim uri = uri) :
      FetchResponse.sectionLine algo s (toUtf8 (hash ++ ' ' :: uri)) =
      .ok { s with resp := { s.resp with packfileUris := s.resp.packfileUris ++
        [(hash, uri)] } } := by
  have hspace : ' ' ∉ hash := fun h => absurd (hhash ' ' h) (by decide)
  have hbyte : (32 : UInt8) ∈ toUtf8 (hash ++ ' ' :: uri) := by
    rw [toUtf8_append, toUtf8_cons]
    exact List.mem_append_right _ (List.mem_append_left _ List.mem_cons_self)
  rw [FetchResponse.sectionLine, if_neg (not_header hbyte).1, if_neg (not_header hbyte).2,
    if_pos hinUris, utf8OrProtocol, fromUtf8_toUtf8, except_ok_bind,
    splitOnce_eq_some.mpr ⟨rfl, hspace⟩]
  simp only
  rw [trim_of_not_whitespace hhash, huri]

/-- A section is read as its lines are; its end ends the list of URIs. -/
theorem foldlM_section {present : Bool} {header : Str} {body : List Str} {s'' : FetchResponse.State}
    (s' : FetchResponse.State)
    (hlines : present = true → ((header :: body).map linePacket).foldlM
      (FetchResponse.packet algo) s = .ok s')
    (habsent : present = false → s = s'') (hend : { s' with inUris := false } = s'') :
    (sectionPackets present header body).foldlM (FetchResponse.packet algo) s = .ok s'' := by
  cases present with
  | false =>
      rw [← habsent rfl]
      rfl
  | true =>
      rw [sectionPackets, if_pos rfl, List.foldlM_append, hlines rfl, except_ok_bind, ← hend]
      rfl

/-- The line starts as no line does that a client reads. -/
def Ignored (line : Str) : Prop :=
  ∃ c l, line = c :: (l ++ ['\n']) ∧ c.toNat < 128 ∧ c.toNat ≠ 112 ∧ c.toNat ≠ 115 ∧ c.toNat ≠ 117

theorem Ignored.toHex (id : ObjectId) (rest : Str) : Ignored (id.toHex ++ rest ++ ['\n']) := by
  obtain ⟨c, r, hr, -, -⟩ := toHex_eq_cons id
  have hc := ObjectId.mem_toHex (o := id) (c := c) (by rw [hr]; exact List.mem_cons_self)
  refine ⟨c, r ++ rest, ?_, by omega, by omega, by omega, by omega⟩
  rw [hr, List.cons_append, List.cons_append]

theorem packet_ignored (hpack : s.inPackfile = false) (huris : s.inUris = false) {line : Str}
    (h : Ignored line) :
    FetchResponse.packet algo s (linePacket line) = .ok s := by
  obtain ⟨c, l, rfl, hascii, hp, hs, hu⟩ := h
  have hbyte : ∀ n < 128, c.toNat ≠ n → UInt8.ofNat c.toNat ≠ UInt8.ofNat n := by
    intro n hn hne heq
    have hval := congrArg UInt8.toNat heq
    rw [UInt8.toNat_ofNat_of_lt' (by simp [UInt8.size]; omega),
      UInt8.toNat_ofNat_of_lt' (by simp [UInt8.size]; omega)] at hval
    exact hne hval
  rw [← List.cons_append, packet_line hpack, toUtf8_cons, utf8Char, if_pos hascii]
  exact sectionLine_other huris ⟨hbyte 112 (by omega) hp, hbyte 115 (by omega) hs,
    hbyte 117 (by omega) hu⟩

/-- The acknowledgments are not kept. -/
theorem foldlM_acknowledgments (hpack : s.inPackfile = false) (huris : s.inUris = false)
    (present : Bool) (common : List ObjectId) :
    (sectionPackets present (str "acknowledgments\n") (ackLines common)).foldlM
      (FetchResponse.packet algo) s = .ok s := by
  refine foldlM_section s (fun _ => foldlM_other fun l hl => packet_ignored hpack huris ?_)
    (fun _ => rfl) (by rw [← huris])
  rcases List.mem_cons.mp hl with rfl | hl
  · exact ⟨'a', str "cknowledgments", rfl, by decide⟩
  rcases List.mem_append.mp hl with hl | hl
  · split at hl
    · obtain rfl := List.mem_singleton.mp hl
      exact ⟨'N', str "AK", rfl, by decide⟩
    · obtain ⟨id, -, rfl⟩ := List.mem_map.mp hl
      exact ⟨'A', str "CK " ++ id.toHex, rfl, by decide⟩
  · obtain rfl := List.mem_singleton.mp hl
    exact ⟨'r', str "eady", rfl, by decide⟩

/-- The names of the wanted refs are not kept. -/
theorem foldlM_wantedRefs (hpack : s.inPackfile = false) (huris : s.inUris = false)
    (refs : List (ObjectId × Str)) :
    (sectionPackets (!refs.isEmpty) (str "wanted-refs\n")
      (refs.map fun r => r.1.toHex ++ ' ' :: r.2 ++ ['\n'])).foldlM (FetchResponse.packet algo)
        s = .ok s := by
  refine foldlM_section s (fun _ => foldlM_other fun l hl => packet_ignored hpack huris ?_)
    (fun _ => rfl) (by rw [← huris])
  rcases List.mem_cons.mp hl with rfl | hl
  · exact ⟨'w', str "anted-refs", rfl, by decide⟩
  · obtain ⟨r, -, rfl⟩ := List.mem_map.mp hl
    exact Ignored.toHex r.1 (' ' :: r.2)

/-- The lines of fields are put to the fields already read. -/
theorem foldlM_fields {α : Type} {inUris : Bool} (text : α → Str)
    (put : FetchResponse.State → List α → FetchResponse.State) (hnil : ∀ s, put s [] = s)
    (hcons : ∀ s x xs, put (put s [x]) xs = put s (x :: xs))
    (hkept : ∀ s xs, (put s xs).inPackfile = s.inPackfile ∧ (put s xs).inUris = s.inUris)
    {xs : List α} (hline : ∀ x ∈ xs, ∀ s : FetchResponse.State, s.inUris = inUris →
      FetchResponse.sectionLine algo s (toUtf8 (text x)) = .ok (put s [x]))
    (hpack : s.inPackfile = false) (huris : s.inUris = inUris) :
    ((xs.map fun x => text x ++ ['\n']).map linePacket).foldlM (FetchResponse.packet algo) s =
      .ok (put s xs) := by
  rw [List.foldlM_map]
  refine foldlM_put (f := fun s d => FetchResponse.packet algo s (.data d)) (fun x =>
    text x ++ ['\n']) put
    (P := fun s => s.inPackfile = false ∧ s.inUris = inUris) hnil hcons (fun x hx s hs => ?_)
      ⟨hpack, huris⟩
  obtain ⟨hpack', huris'⟩ := hkept s [x]
  refine ⟨(packet_line hs.1 _).trans (hline x hx s hs.2), ?_⟩
  rw [hpack', huris']
  exact hs

/-- The boundary is read. -/
theorem foldlM_boundary (hpack : s.inPackfile = false) (huris : s.inUris = false)
    {shallow unshallow : List ObjectId} (hshallow : ∀ id ∈ shallow, id.algo = algo)
    (hunshallow : ∀ id ∈ unshallow, id.algo = algo) :
    (sectionPackets (!(shallow.isEmpty && unshallow.isEmpty)) (str "shallow-info\n")
      (idLines (str "shallow ") shallow ++ idLines (str "unshallow ") unshallow)).foldlM
        (FetchResponse.packet algo) s =
      .ok { s with resp := { s.resp with
              shallow := s.resp.shallow ++ shallow, unshallow :=
                s.resp.unshallow ++ unshallow } } := by
  have hheader : FetchResponse.packet algo s (linePacket (str "shallow-info\n")) = .ok s := by
    refine (packet_line hpack (str "shallow-info")).trans ?_
    rw [FetchResponse.sectionLine, if_neg (by decide), if_neg (by decide),
      if_neg (by rw [huris]; exact Bool.false_ne_true)]
    rfl
  have hlines : ∀ s : FetchResponse.State, s.inPackfile = false → s.inUris = false →
      ((idLines (str "shallow ") shallow).map linePacket).foldlM (FetchResponse.packet algo) s =
        .ok { s with resp := { s.resp with shallow := s.resp.shallow ++ shallow } } :=
          fun s hpack huris =>
    foldlM_fields (fun id : ObjectId => str "shallow " ++ id.toHex)
      (fun s ids => { s with resp := { s.resp with shallow := s.resp.shallow ++ ids } })
        (by simp) (by simp)
      (fun _ _ => ⟨rfl, rfl⟩) (fun id hid s hs =>
        sectionLine_shallow hs (hshallow id hid)) hpack huris
  have hunlines : ∀ s : FetchResponse.State, s.inPackfile = false → s.inUris = false →
      ((idLines (str "unshallow ") unshallow).map linePacket).foldlM (FetchResponse.packet algo) s =
        .ok { s with resp := { s.resp with unshallow := s.resp.unshallow ++ unshallow } } :=
          fun s hpack huris =>
    foldlM_fields (fun id : ObjectId => str "unshallow " ++ id.toHex)
      (fun s ids => { s with resp := { s.resp with unshallow := s.resp.unshallow ++ ids } })
        (by simp) (by simp)
      (fun _ _ => ⟨rfl, rfl⟩) (fun id hid s hs =>
        sectionLine_unshallow hs (hunshallow id hid)) hpack huris
  refine foldlM_section { s with resp := { s.resp with
      shallow := s.resp.shallow ++ shallow, unshallow := s.resp.unshallow ++ unshallow } }
    (fun _ => ?_) (fun habsent => ?_) (by rw [← huris])
  · rw [List.map_cons, List.foldlM_cons, hheader, except_ok_bind, List.map_append,
      List.foldlM_append,
      hlines s hpack huris, except_ok_bind]
    exact hunlines _ hpack huris
  · rw [Bool.not_eq_false', Bool.and_eq_true, List.isEmpty_iff, List.isEmpty_iff] at habsent
    rw [habsent.1, habsent.2, List.append_nil, List.append_nil]

/-- The URIs are read. -/
theorem foldlM_packfileUris (hpack : s.inPackfile = false) (huris : s.inUris = false)
    {uris : List (Str × Str)} (hplain : ∀ u ∈ uris, (∀ c ∈ u.1, isWhitespace c = false) ∧
      trim u.2 = u.2) :
    (sectionPackets (!uris.isEmpty) (str "packfile-uris\n")
      (uris.map fun u => u.1 ++ ' ' :: u.2 ++ ['\n'])).foldlM (FetchResponse.packet algo) s =
      .ok { s with resp := { s.resp with packfileUris := s.resp.packfileUris ++ uris } } := by
  have hheader : FetchResponse.packet algo s (linePacket (str "packfile-uris\n")) =
      .ok { s with inUris := true } := by
    refine (packet_line hpack (str "packfile-uris")).trans ?_
    have hname : toUtf8 (str "packfile-uris") = bytes "packfile-uris" := rfl
    rw [FetchResponse.sectionLine, if_neg (by decide), if_pos hname]
  have hlines : ∀ s : FetchResponse.State, s.inPackfile = false → s.inUris = true →
      ((uris.map fun u => u.1 ++ ' ' :: u.2 ++ ['\n']).map linePacket).foldlM
        (FetchResponse.packet algo) s =
        .ok { s with resp := { s.resp with packfileUris := s.resp.packfileUris ++ uris } } :=
          fun s hpack huris =>
    foldlM_fields (fun u : Str × Str => u.1 ++ ' ' :: u.2)
      (fun s uris => { s with resp := { s.resp with packfileUris := s.resp.packfileUris ++ uris } })
        (by simp) (by simp)
      (fun _ _ => ⟨rfl, rfl⟩) (fun u hu s hs =>
        sectionLine_uri hs (hplain u hu).1 (hplain u hu).2) hpack huris
  refine foldlM_section { s with
      inUris := true, resp := { s.resp with packfileUris := s.resp.packfileUris ++ uris } }
    (fun _ => ?_) (fun habsent => ?_) (by rw [← huris])
  · rw [List.map_cons, List.foldlM_cons, hheader, except_ok_bind]
    exact hlines _ hpack rfl
  · rw [Bool.not_eq_false', List.isEmpty_iff] at habsent
    rw [habsent, List.append_nil]

/-- The pack is read from its chunks. -/
theorem foldlM_pack (hpack : s.inPackfile = true) (chunks : List Bytes) :
    (chunks.map fun c => Packet.data (1 :: c)).foldlM (FetchResponse.packet algo) s =
      .ok { s with resp := { s.resp with pack := s.resp.pack ++ chunks.flatten } } := by
  induction chunks generalizing s with
  | nil => rw [List.flatten_nil, List.append_nil]; rfl
  | cons c chunks ih =>
      have hone : FetchResponse.packet algo s (.data (1 :: c)) =
          .ok { s with resp := { s.resp with pack := s.resp.pack ++ c } } := by
        rw [FetchResponse.packet, if_pos hpack, FetchResponse.packData, if_pos rfl]
      rw [List.map_cons, List.foldlM_cons, hone, except_ok_bind, List.flatten_cons,
        ← List.append_assoc]
      exact ih hpack

end

/-! ## The response -/

/-- The line of a wanted ref. -/
def wantedRefLine (r : ObjectId × Str) : Str := r.1.toHex ++ ' ' :: r.2 ++ ['\n']

/-- The line of a URI. -/
def uriLine (u : Str × Str) : Str := u.1 ++ ' ' :: u.2 ++ ['\n']

section
variable {algo : HashAlgo} {acks : Option (List ObjectId)} {shallow unshallow : List ObjectId}
  {refs : List (ObjectId × Str)} {uris : List (Str × Str)} {pack : Bytes}

/-- The packets of a response. -/
def responsePackets (acks : Option (List ObjectId)) (shallow unshallow : List ObjectId)
    (refs : List (ObjectId × Str)) (uris : List (Str × Str)) (pack : Bytes) : List Packet :=
  sectionPackets acks.isSome (str "acknowledgments\n") (ackLines (acks.getD []))
    ++ sectionPackets (!(shallow.isEmpty && unshallow.isEmpty)) (str "shallow-info\n")
        (idLines (str "shallow ") shallow ++ idLines (str "unshallow ") unshallow)
    ++ sectionPackets (!refs.isEmpty) (str "wanted-refs\n") (refs.map wantedRefLine)
    ++ sectionPackets (!uris.isEmpty) (str "packfile-uris\n") (uris.map uriLine)
    ++ [linePacket (str "packfile\n")]
    ++ ((pack.toChunks (maxPktlineLen - 4 - 1)).map fun c => .data (1 :: c)) ++ [.flush]

theorem framed_response {out : Bytes}
    (h : encodeFetchSections acks shallow unshallow refs uris pack = .ok out) :
    Framed (responsePackets acks shallow unshallow refs uris pack) out := by
  obtain ⟨acksOut, hacks, h⟩ := except_bind_ok.mp h
  obtain ⟨boundaryOut, hboundary, h⟩ := except_bind_ok.mp h
  obtain ⟨refsOut, hrefs, h⟩ := except_bind_ok.mp h
  obtain ⟨urisOut, huris, h⟩ := except_bind_ok.mp h
  obtain ⟨headerOut, hheader, h⟩ := except_bind_ok.mp h
  obtain ⟨bodyOut, hbody, h⟩ := except_bind_ok.mp h
  cases h
  obtain ⟨body, hpack, hframed⟩ :=
    framed_sideband (n := maxPktlineLen - 4 - 1) (by decide) (by decide) pack
  obtain rfl := Except.ok.inj (hbody.symm.trans hpack)
  exact ((((((framed_sectionIf hacks).append (framed_sectionIf hboundary)).append
    (framed_sectionIf hrefs)).append
    (framed_sectionIf huris)).append (.single (p := linePacket _) hheader)).append hframed).append
      (.single (p := .flush) rfl)

/-- A list of lines fits where its section is there just when each fits. -/
theorem fits_section {α : Type} {header : Str} {line : α → Str} {xs : List α}
    (hheader : Fits header) :
    (∃ out, sectionIf (!xs.isEmpty) header (xs.map line) = .ok out) ↔ ∀ x ∈ xs, Fits (line x) := by
  rw [sectionIf_ok_iff, List.forall_mem_cons, List.forall_mem_map]
  constructor
  · intro h x hx
    refine (h ?_).2 x hx
    cases xs with
    | nil => cases hx
    | cons _ _ => rfl
  · exact fun h _ => ⟨hheader, h⟩

/-- **A response is encoded** just when the lines that hold texts of the caller fit. -/
theorem encodeFetchSections_ok_iff :
    (∃ out, encodeFetchSections acks shallow unshallow refs uris pack = .ok out) ↔
      (∀ r ∈ refs, Fits (wantedRefLine r)) ∧ ∀ u ∈ uris, Fits (uriLine u) := by
  have hacks : ∃ out, sectionIf acks.isSome (str "acknowledgments\n")
      (ackLines (acks.getD [])) = .ok out := by
    refine sectionIf_ok_iff.mpr fun _ l hl => ?_
    rcases List.mem_cons.mp hl with rfl | hl
    · decide
    rcases List.mem_append.mp hl with hl | hl
    · split at hl
      · obtain rfl := List.mem_singleton.mp hl
        decide
      · obtain ⟨id, -, rfl⟩ := List.mem_map.mp hl
        exact fits_toHex id (by decide)
    · obtain rfl := List.mem_singleton.mp hl
      decide
  have hboundary : ∃ out, sectionIf (!(shallow.isEmpty && unshallow.isEmpty)) (str "shallow-info\n")
      (idLines (str "shallow ") shallow ++ idLines (str "unshallow ") unshallow) = .ok out := by
    refine sectionIf_ok_iff.mpr fun _ l hl => ?_
    rcases List.mem_cons.mp hl with rfl | hl
    · decide
    rcases List.mem_append.mp hl with hl | hl
    · obtain ⟨id, -, rfl⟩ := List.mem_map.mp hl
      exact fits_toHex id (by decide)
    · obtain ⟨id, -, rfl⟩ := List.mem_map.mp hl
      exact fits_toHex id (by decide)
  rw [← @fits_section _ (str "wanted-refs\n") _ _ (by decide),
    ← @fits_section _ (str "packfile-uris\n") uriLine _ (by decide)]
  constructor
  · rintro ⟨out, h⟩
    obtain ⟨_, -, h⟩ := except_bind_ok.mp h
    obtain ⟨_, -, h⟩ := except_bind_ok.mp h
    obtain ⟨refsOut, hrefs, h⟩ := except_bind_ok.mp h
    obtain ⟨urisOut, huris, -⟩ := except_bind_ok.mp h
    exact ⟨⟨refsOut, hrefs⟩, urisOut, huris⟩
  · rintro ⟨⟨refsOut, hrefs⟩, urisOut, huris⟩
    obtain ⟨acksOut, hacks⟩ := hacks
    obtain ⟨boundaryOut, hboundary⟩ := hboundary
    obtain ⟨body, hpack, -⟩ := framed_sideband (n := maxPktlineLen - 4 - 1) (by decide)
      (by decide) pack
    refine ⟨_, except_bind_ok.mpr ⟨acksOut, hacks, except_bind_ok.mpr ⟨boundaryOut, hboundary,
      except_bind_ok.mpr ⟨refsOut, hrefs,
        except_bind_ok.mpr ⟨urisOut, huris, except_bind_ok.mpr ⟨_, rfl,
        except_bind_ok.mpr ⟨body, hpack, rfl⟩⟩⟩⟩⟩⟩⟩

/-- **What a client acts on is what was written**, whichever sections are there. -/
theorem parse_encodeFetchSections (hshallow : ∀ id ∈ shallow, id.algo = algo)
    (hunshallow : ∀ id ∈ unshallow, id.algo = algo)
    (huris : ∀ u ∈ uris, (∀ c ∈ u.1, isWhitespace c = false) ∧ trim u.2 = u.2) :
    ((∃ out, encodeFetchSections acks shallow unshallow refs uris pack = .ok out) ↔
      (∀ r ∈ refs, Fits (wantedRefLine r)) ∧ ∀ u ∈ uris, Fits (uriLine u)) ∧
    ∀ out, encodeFetchSections acks shallow unshallow refs uris pack = .ok out →
      (decodeAll out >>= parseFetchResponseSections algo) =
        .ok ⟨shallow, unshallow, uris, pack⟩ := by
  refine ⟨encodeFetchSections_ok_iff, fun out hout => ?_⟩
  have hheader : ∀ s : FetchResponse.State, s.inPackfile = false →
      [linePacket (str "packfile\n")].foldlM (FetchResponse.packet algo) s =
        .ok { s with inPackfile := true } := by
    intro s hs
    have hname : toUtf8 (str "packfile") = bytes "packfile" := rfl
    have hline : FetchResponse.packet algo s (linePacket (str "packfile\n")) =
        .ok { s with inPackfile := true } := by
      refine (packet_line hs (str "packfile")).trans ?_
      rw [FetchResponse.sectionLine, if_pos hname]
    rw [List.foldlM_cons, hline]
    rfl
  let read := fun s (packets : List Packet) => packets.foldlM (FetchResponse.packet algo) s
  have hfold : read ⟨⟨[], [], [], []⟩, false, false⟩
    (responsePackets acks shallow unshallow refs uris pack) =
      .ok ⟨⟨shallow, unshallow, uris, pack⟩, true, false⟩ := by
    have hacks : read ⟨⟨[], [], [], []⟩, false, false⟩
      (sectionPackets acks.isSome (str "acknowledgments\n")
        (ackLines (acks.getD []))) = .ok ⟨⟨[], [], [], []⟩, false, false⟩ :=
          foldlM_acknowledgments rfl rfl _ _
    have hboundary : read ⟨⟨[], [], [], []⟩, false, false⟩
        (sectionPackets (!(shallow.isEmpty && unshallow.isEmpty)) (str "shallow-info\n")
          (idLines (str "shallow ") shallow ++ idLines (str "unshallow ") unshallow)) =
        .ok ⟨⟨shallow, unshallow, [], []⟩, false, false⟩ :=
          foldlM_boundary rfl rfl hshallow hunshallow
    have hrefs : read ⟨⟨shallow, unshallow, [], []⟩, false, false⟩
        (sectionPackets (!refs.isEmpty) (str "wanted-refs\n") (refs.map wantedRefLine)) =
        .ok ⟨⟨shallow, unshallow, [], []⟩, false, false⟩ := foldlM_wantedRefs rfl rfl refs
    have hlist : read ⟨⟨shallow, unshallow, [], []⟩, false, false⟩
        (sectionPackets (!uris.isEmpty) (str "packfile-uris\n") (uris.map uriLine)) =
        .ok ⟨⟨shallow, unshallow, uris, []⟩, false, false⟩ := foldlM_packfileUris rfl rfl huris
    have hpack : read ⟨⟨shallow, unshallow, uris, []⟩, true, false⟩
        ((pack.toChunks (maxPktlineLen - 4 - 1)).map fun c => .data (1 :: c)) =
        .ok ⟨⟨shallow, unshallow, uris, pack⟩, true, false⟩ := by
      refine (foldlM_pack rfl _).trans ?_
      rw [flatten_toChunks]
      rfl
    have happend : ∀ s (first rest : List Packet), read s (first ++ rest) = read s first >>=
        fun s => read s rest :=
      fun s first rest => List.foldlM_append
    rw [responsePackets, happend, happend, happend, happend, happend, happend, hacks,
      except_ok_bind, hboundary,
      except_ok_bind, hrefs, except_ok_bind, hlist, except_ok_bind]
    rw [show read _ _ = _ from hheader _ rfl, except_ok_bind, hpack]
    rfl
  rw [decodeAll_framed (framed_response hout), except_ok_bind, parseFetchResponseSections]
  exact congrArg (· >>= _) hfold

/-- A response with every section. -/
theorem parse_encodeFetchSections_full : ∃ out,
    encodeFetchSections (some []) [ObjectId.zero .sha1] [ObjectId.zero .sha1]
      [(ObjectId.zero .sha1, str "refs/heads/a")]
      [(str "aa", str "https://cdn.example/aa.pack")] packMagic = .ok out ∧
    (decodeAll out >>= parseFetchResponseSections .sha1) =
      .ok ⟨[ObjectId.zero .sha1], [ObjectId.zero .sha1],
      [(str "aa", str "https://cdn.example/aa.pack")], packMagic⟩ := by
  have hall := @parse_encodeFetchSections .sha1 (some []) [ObjectId.zero .sha1]
    [ObjectId.zero .sha1] [(ObjectId.zero .sha1, str "refs/heads/a")]
      [(str "aa", str "https://cdn.example/aa.pack")] packMagic
    (by decide) (by decide) (List.forall_mem_singleton.mpr
      ⟨List.all_iff_forall_prop.mp (by decide), by decide⟩)
  obtain ⟨out, hout⟩ := hall.1.mpr ⟨by decide, by decide⟩
  exact ⟨out, hout, hall.2 out hout⟩

/-- A URI that is too long for a packet is not sent. -/
theorem not_encodeFetchSections_long : ¬ ∃ out,
    encodeFetchSections none [] [] [] [(str "aa", List.replicate maxPktlineLen 'x')]
      packMagic = .ok out := by
  intro hout
  have hfits := (encodeFetchSections_ok_iff.mp hout).2 _ List.mem_cons_self
  have hline : uriLine (str "aa", List.replicate maxPktlineLen 'x') =
      str "aa " ++ List.replicate maxPktlineLen 'x' ++ ['\n'] := rfl
  rw [hline] at hfits
  exact not_fits_long (le_refl maxPktlineLen) _ _ hfits

end

end Puregit.V2
