import Puregit.Refs.Format
import Puregit.Server.Acks
import Puregit.Server.Pack

/-! # Reading an upload-pack response

The client reads a v0/v1 response twice: for the shallow boundary, which it scans the first
packets for, and for the pack.  The pack is the rest of the response from the first `PACK`
that stands where a packet would, or what channel 1 of the sideband carries.

`response_decoded` reads back what a server writes.  At most `maxPrepackPktlines` packets are
scanned, so that without a sideband the pack is found behind no more lines than that.
-/
namespace Puregit.Client
open PktLine Server

/-- The most packets that are scanned for a raw pack. -/
def maxPrepackPktlines : Nat := 65536

/-- What a raw pack starts with. -/
def packMagic : Bytes := bytes "PACK"

/-- The id of a `shallow` or `unshallow` line. -/
def parseOidLine (algo : HashAlgo) (rest : Bytes) : Except Error ObjectId :=
  match fromUtf8 rest with
  | none => .error (.protocol (str "shallow: non-utf8"))
  | some text => ObjectId.fromHex algo (trim text)

/-- What a packet adds to the ids that become shallow and those that no longer are. -/
def shallowPacket (algo : HashAlgo) (updates : List ObjectId × List ObjectId) :
    Packet → Except Error (List ObjectId × List ObjectId)
  | .data d =>
    match stripPrefix? (bytes "shallow ") d with
    | some rest => (parseOidLine algo rest).map fun id => (updates.1 ++ [id], updates.2)
    | none =>
      match stripPrefix? (bytes "unshallow ") d with
      | some rest => (parseOidLine algo rest).map fun id => (updates.1, updates.2 ++ [id])
      | none => .ok updates
  | _ => .ok updates

/-- Scans at most so many packets, up to a raw pack. -/
def shallowScan (algo : HashAlgo) : Nat → Bytes → List ObjectId × List ObjectId →
    Except Error (List ObjectId × List ObjectId)
  | 0, _, updates => .ok updates
  | n + 1, input, updates =>
    if input.isEmpty || packMagic.isPrefixOf input then .ok updates
    else do
      match ← decode input with
      | none => .ok updates
      | some (p, k) =>
        let updates ← shallowPacket algo updates p
        shallowScan algo n (input.drop k) updates

/-- The ids a response makes shallow, and those it no longer leaves shallow. -/
def parseShallowUpdates (algo : HashAlgo) (response : Bytes) :
    Except Error (List ObjectId × List ObjectId) :=
  shallowScan algo maxPrepackPktlines response ([], [])

/-- Skips at most so many packets before a raw pack. -/
def stripScan : Nat → Bytes → Except Error Bytes
  | 0, input =>
    if packMagic.isPrefixOf input then .ok input
    else .error (.protocol (str "upload-pack response: too many pre-pack pkt-lines"))
  | n + 1, input =>
    if packMagic.isPrefixOf input then .ok input
    else do
      match ← decode input with
      | none => .error (.protocol (str "upload-pack response contained no packfile"))
      | some (_, k) =>
        if k ≥ input.length then
          .error (.protocol (str "upload-pack response contained no packfile"))
        else stripScan n (input.drop k)

/-- The raw pack of a response. -/
def stripToPack (response : Bytes) : Except Error Bytes := stripScan maxPrepackPktlines response

/-- Collects what channel 1 carries, up to a flush behind some of it. -/
def demuxGo : Nat → Bytes → Bytes → Except Error Bytes
  | 0, _, pack => .ok pack
  | fuel + 1, input, pack =>
    if input.isEmpty then .ok pack
    else do
      match ← decode input with
      | none => .ok pack
      | some (p, k) =>
        if k = 0 then .ok pack
        else match p with
          | .data (1 :: chunk) => demuxGo fuel (input.drop k) (pack ++ chunk)
          | .data (3 :: text) =>
            .error (.protocol (str "upload-pack sideband error: " ++ fromUtf8Lossy text))
          | .flush => if pack.isEmpty then demuxGo fuel (input.drop k) pack else .ok pack
          | _ => demuxGo fuel (input.drop k) pack

/-- The pack of a multiplexed response. -/
def demuxSidebandPack (response : Bytes) : Except Error Bytes := do
  let pack ← demuxGo (response.length + 1) response []
  if packMagic.isPrefixOf pack then .ok pack
  else .error (.protocol (str "upload-pack sideband response contained no packfile"))

/-! ## Framed bytes -/

/-- The bytes are these packets, one after the other. -/
inductive Framed : List Packet → Bytes → Prop
  | nil : Framed [] []
  | cons {p : Packet} {ps : List Packet} {out rest : Bytes} : encode p = .ok out → Framed ps rest →
      Framed (p :: ps) (out ++ rest)

namespace Framed

theorem append {ps qs : List Packet} {out rest : Bytes} (h : Framed ps out) (h' : Framed qs rest) :
    Framed (ps ++ qs) (out ++ rest) := by
  induction h with
  | nil => exact h'
  | cons hp _ ih =>
      rw [List.cons_append, List.append_assoc]
      exact .cons hp ih

theorem single {p : Packet} {out : Bytes} (h : encode p = .ok out) : Framed [p] out := by
  have hone := Framed.cons h .nil
  rwa [List.append_nil] at hone

theorem lines {ls : List Str} {out : Bytes} (h : ReportStatus.encodeLines ls = .ok out) :
    Framed (ls.map linePacket) out := by
  induction ls generalizing out with
  | nil =>
      cases h
      exact .nil
  | cons l ls ih =>
      obtain ⟨p, hp, h⟩ := except_bind_ok.mp h
      obtain ⟨ps, hps, h⟩ := except_bind_ok.mp h
      cases h
      exact .cons hp (ih hps)

/-- Every packet is of some bytes. -/
theorem length_le {ps : List Packet} {out : Bytes} (h : Framed ps out) :
    ps.length ≤ out.length := by
  induction h with
  | nil => exact le_rfl
  | cons hp _ ih =>
      have hk := (decode_consumed (decode_encode hp [])).1
      rw [List.length_cons, List.length_append]
      omega

end Framed

/-- No packet starts as a raw pack does. -/
theorem not_packMagic_of_encode {p : Packet} {out : Bytes} (h : encode p = .ok out) (rest : Bytes) :
    packMagic.isPrefixOf (out ++ rest) = false := by
  refine Bool.eq_false_iff.mpr fun hmagic => ?_
  obtain ⟨tail, htail⟩ := List.isPrefixOf_iff_prefix.mp hmagic
  have hdecode := decode_encode h rest
  rw [← htail] at hdecode
  -- `P` is no hex digit
  have hlen : ¬ (packMagic ++ tail).length < 4 := by
    rw [List.length_append, show packMagic.length = 4 from rfl]
    omega
  rw [decode, if_neg hlen] at hdecode
  cases hdecode

/-! ## Reading framed bytes -/

variable {algo : HashAlgo} {ps : List Packet} {out : Bytes}

/-- Bytes that start with a packet are not at their end. -/
theorem isEmpty_packet {p : Packet} (h : encode p = .ok out) (rest : Bytes) :
    (out ++ rest).isEmpty = false := by
  have hk := (decode_consumed (decode_encode h rest)).1
  cases hout : out ++ rest with
  | nil =>
      rw [List.append_eq_nil_iff.mp hout |>.1] at hk
      cases hk
  | cons b bs => rfl

theorem shallowScan_packet {p : Packet} (h : encode p = .ok out) (n : Nat) (rest : Bytes)
    (updates : List ObjectId × List ObjectId) : shallowScan algo (n + 1) (out ++ rest) updates =
      shallowPacket algo updates p >>= shallowScan algo n rest := by
  rw [shallowScan, isEmpty_packet h, not_packMagic_of_encode h]
  simp only [Bool.or_self, Bool.false_eq_true, if_false]
  rw [decode_encode h]
  show shallowPacket algo updates p >>= (fun u =>
    shallowScan algo n ((out ++ rest).drop out.length) u) = _
  rw [List.drop_left]

/-- **A scan of framed bytes takes its packets in turn**, as many as it may. -/
theorem shallowScan_framed (h : Framed ps out) (n : Nat) (rest : Bytes)
    (updates : List ObjectId × List ObjectId) :
    shallowScan algo n (out ++ rest) updates =
      (ps.take n).foldlM (shallowPacket algo) updates >>=
        shallowScan algo (n - ps.length) rest := by
  induction h generalizing n updates with
  | nil =>
      rw [List.take_nil]
      rfl
  | @cons p ps out' rest' hp hps ih =>
      cases n with
      | zero =>
          rw [List.take_zero, Nat.zero_sub]
          rfl
      | succ n =>
          rw [List.append_assoc, shallowScan_packet hp, List.take_succ_cons,
            List.foldlM_cons, bind_assoc,
            List.length_cons, Nat.add_sub_add_right]
          exact congrArg _ (funext fun u => ih n u)

/-- A scan stops at a raw pack, or at the end. -/
theorem shallowScan_stop {rest : Bytes} (h : rest = [] ∨ packMagic <+: rest) (n : Nat)
    (updates : List ObjectId × List ObjectId) : shallowScan algo n rest updates = .ok updates := by
  cases n with
  | zero => rfl
  | succ n =>
      rw [shallowScan, if_pos]
      rcases h with rfl | h
      · rfl
      · simp [List.isPrefixOf_iff_prefix.mpr h]

/-- **Skipping framed bytes comes to what follows them**, unless they are too many. -/
theorem stripScan_framed (h : Framed ps out) {n : Nat} {rest : Bytes} (hrest : rest ≠ []) :
    stripScan n (out ++ rest) = if ps.length ≤ n then stripScan (n - ps.length) rest
      else .error (.protocol (str "upload-pack response: too many pre-pack pkt-lines")) := by
  induction h generalizing n with
  | nil => rfl
  | @cons p ps out' rest' hp hps ih =>
      rw [List.append_assoc]
      cases n with
      | zero =>
          rw [stripScan, not_packMagic_of_encode hp]
          rfl
      | succ n =>
          have hmore : ¬ out'.length ≥ (out' ++ (rest' ++ rest)).length := by
            have hpos := List.length_pos_of_ne_nil hrest
            simp only [List.length_append]
            omega
          rw [stripScan, not_packMagic_of_encode hp, decode_encode hp]
          simp only [Bool.false_eq_true, if_false]
          show (if out'.length ≥ (out' ++ (rest' ++ rest)).length then _ else _) = _
          rw [if_neg hmore, List.drop_left, ih, List.length_cons, Nat.add_sub_add_right]
          simp only [Nat.add_le_add_iff_right]

/-- A packet that carries nothing of a pack, and no error. -/
def Skipped : Packet → Prop
  | .data d => ∀ b ∈ d.head?, b ≠ 1 ∧ b ≠ 3
  | _ => True

theorem demuxGo_packet (p : Packet) (fuel : Nat) (rest pack : Bytes) : encode p = .ok out →
    demuxGo (fuel + 1) (out ++ rest) pack = match p with
      | .data (1 :: chunk) => demuxGo fuel rest (pack ++ chunk)
      | .data (3 :: text) =>
        .error (.protocol (str "upload-pack sideband error: " ++ fromUtf8Lossy text))
      | .flush => if pack.isEmpty then demuxGo fuel rest pack else .ok pack
      | _ => demuxGo fuel rest pack := by
  intro h
  have hk := (decode_consumed (decode_encode h rest)).1
  rw [demuxGo, isEmpty_packet h, decode_encode h]
  simp only [Bool.false_eq_true, if_false]
  show (if out.length = 0 then _ else _) = _
  rw [if_neg (by omega), List.drop_left]

/-- What is not of the pack is skipped before it. -/
theorem demuxGo_skipped (h : Framed ps out) (hskip : ∀ p ∈ ps, Skipped p) (fuel : Nat)
    (rest : Bytes) :
    demuxGo (fuel + ps.length) (out ++ rest) [] = demuxGo fuel rest [] := by
  induction h with
  | nil => rfl
  | @cons p ps out' rest' hp hps ih =>
      have hps' := ih fun q hq => hskip q (List.mem_cons_of_mem p hq)
      have hp' := hskip p List.mem_cons_self
      rw [List.append_assoc, List.length_cons, ← Nat.add_assoc, demuxGo_packet _ _ _ _ hp]
      split
      · exact absurd rfl (hp' 1 rfl).1
      · exact absurd rfl (hp' 3 rfl).2
      · exact hps'
      · exact hps'

/-- **The chunks of a pack are put together again.** -/
theorem demuxGo_chunks {chunks : List Bytes} (h : Framed (chunks.map fun c => .data (1 :: c)) out)
    (fuel : Nat) (rest pack : Bytes) : demuxGo (fuel + chunks.length) (out ++ rest) pack =
      demuxGo fuel rest (pack ++ chunks.flatten) := by
  induction chunks generalizing out pack with
  | nil =>
      cases h
      simp
  | cons c cs ih =>
      obtain _ | ⟨hp, hps⟩ := h
      rw [List.append_assoc, List.length_cons, ← Nat.add_assoc, demuxGo_packet _ _ _ _ hp]
      show demuxGo (fuel + cs.length) _ (pack ++ c) = _
      rw [ih hps, List.flatten_cons, List.append_assoc]

/-! ## Chunks of a pack -/

theorem flatten_toChunks_go {α : Type} (n : Nat) (xs : List α) (acc : Array α)
    (done : Array (List α)) :
    (List.toChunks.go n xs acc done).flatten = done.toList.flatten ++ acc.toList ++ xs := by
  induction xs generalizing acc done with
  | nil => simp [List.toChunks.go]
  | cons x xs ih =>
      rw [List.toChunks.go]
      split
      · rw [ih]
        simp
      · rw [ih]
        simp

theorem length_le_toChunks_go {α : Type} {n : Nat} (hn : 0 < n) (xs : List α) {acc : Array α}
    {done : Array (List α)} (hacc : acc.size ≤ n) (hdone : ∀ c ∈ done.toList, c.length ≤ n) :
    ∀ c ∈ List.toChunks.go n xs acc done, c.length ≤ n := by
  induction xs generalizing acc done with
  | nil =>
      intro c hc
      rw [List.toChunks.go, Array.toList_push, List.mem_append, List.mem_singleton] at hc
      rcases hc with hc | rfl
      · exact hdone c hc
      · exact hacc
  | cons x xs ih =>
      rw [List.toChunks.go]
      split
      · refine ih (Nat.succ_le_of_lt hn) fun c hc => ?_
        rw [Array.toList_push, List.mem_append, List.mem_singleton] at hc
        rcases hc with hc | rfl
        · exact hdone c hc
        · exact hacc
      · rename_i hsize
        have hlt : acc.size ≠ n := by simpa using hsize
        exact ih (by rw [Array.size_push]; omega) hdone

/-- The chunks of a list are the list, cut. -/
theorem flatten_toChunks {α : Type} (n : Nat) (l : List α) : (l.toChunks n).flatten = l := by
  cases l with
  | nil => cases n <;> rfl
  | cons x xs =>
      cases n with
      | zero => exact List.append_nil _
      | succ n => exact (flatten_toChunks_go (n + 1) xs _ _).trans rfl

theorem length_le_of_mem_toChunks {α : Type} {n : Nat} (hn : 0 < n) {l c : List α}
    (h : c ∈ l.toChunks n) : c.length ≤ n := by
  cases l with
  | nil =>
      cases n with
      | zero => cases hn
      | succ n => cases h
  | cons x xs =>
      cases n with
      | zero => cases hn
      | succ n =>
          have hone : #[x].size ≤ n + 1 := Nat.succ_le_of_lt hn
          exact length_le_toChunks_go hn xs hone (by simp) c h

/-- **A pack is sent in packets of channel 1**, if the chunks fit. -/
theorem framed_sideband {n : Nat} (hn : 0 < n) (hfit : n + 5 ≤ maxPktlineLen) (pack : Bytes) :
    ∃ out, sideband n pack = .ok out ∧
      Framed ((pack.toChunks n).map fun c => .data (1 :: c)) out := by
  have hone : ∀ c ∈ pack.toChunks n, ∃ out, encode (.data (1 :: c)) = .ok out := by
    intro c hc
    have hlen := length_le_of_mem_toChunks hn hc
    refine ⟨_, if_neg ?_⟩
    rw [List.length_cons]
    omega
  have hall : ∀ (cs : List Bytes) (done : Bytes) (ps : List Packet), Framed ps done →
      (∀ c ∈ cs, ∃ out, encode (.data (1 :: c)) = .ok out) →
      ∃ out, cs.foldlM (fun out chunk => (encodeData (1 :: chunk)).map (out ++ ·)) done = .ok out ∧
        Framed (ps ++ cs.map fun c => .data (1 :: c)) out := by
    intro cs
    induction cs with
    | nil =>
        intro done ps hdone _
        exact ⟨done, rfl, by simpa using hdone⟩
    | cons c cs ih =>
        intro done ps hdone hcs
        obtain ⟨out, hout⟩ := hcs c List.mem_cons_self
        obtain ⟨all, hfold, hframed⟩ := ih (done ++ out) (ps ++ [.data (1 :: c)])
          (hdone.append (.single hout)) fun d hd => hcs d (List.mem_cons_of_mem c hd)
        refine ⟨all, ?_, by simpa using hframed⟩
        rw [List.foldlM_cons]
        exact except_bind_ok.mpr ⟨_, except_map_ok.mpr ⟨out, hout, rfl⟩, hfold⟩
  obtain ⟨out, hfold, hframed⟩ := hall (pack.toChunks n) [] [] .nil hone
  exact ⟨out, hfold, hframed⟩

/-! ## What a server writes -/

/-- A v0/v1 response: the shallow section, the acknowledgments and the pack. -/
def encodeResponse (caps : Capabilities) (plan : Plan) (acks : List Ack) (pack : Bytes) :
    Except Error Bytes := do
  let boundary ← encodeShallowSection plan
  let lines ← ReportStatus.encodeLines (acks.map Ack.line)
  let body ← encodePackStream caps pack
  .ok (boundary ++ lines ++ body)

/-- How many lines come before the pack. -/
def prepackLines (plan : Plan) (acks : List Ack) : Nat :=
  plan.shallow.length + plan.unshallow.length + acks.length

/-- An id between short texts fits a packet. -/
theorem fits_toHex {before after : Str} (o : ObjectId)
    (h : (toUtf8 before).length + (toUtf8 after).length ≤ 1000) :
    Fits (before ++ o.toHex ++ after) := by
  have hlen : (toUtf8 o.toHex).length ≤ 64 := by
    rw [ObjectId.toHex, ObjectId.length_toUtf8_hex, o.length_eq]
    cases o.algo <;> decide
  rw [Fits, toUtf8_append, toUtf8_append, List.length_append, List.length_append, maxPktlineLen]
  omega

theorem fits_ack (a : Ack) : Fits a.line := by
  have hfinal : ∀ o : ObjectId, Fits (str "ACK " ++ o.toHex ++ ['\n']) :=
    fun o => fits_toHex o (by decide)
  cases a with
  | common o => exact fits_toHex o (by decide)
  | continue_ o => exact fits_toHex o (by decide)
  | ready o => exact fits_toHex o (by decide)
  | final o => exact hfinal o
  | nak => decide

/-- The packets of the ids of a keyword. -/
def idPackets (keyword : Str) (ids : List ObjectId) : List Packet :=
  (idLines keyword ids).map linePacket

/-- The packets of a shallow section. -/
def shallowPackets (plan : Plan) : List Packet :=
  idPackets (str "shallow ") plan.shallow ++ idPackets (str "unshallow ") plan.unshallow ++ [.flush]

theorem framed_shallowSection (plan : Plan) :
    ∃ out, encodeShallowSection plan = .ok out ∧ Framed (shallowPackets plan) out := by
  have hfits : ∀ l ∈ idLines (str "shallow ") plan.shallow ++
    idLines (str "unshallow ") plan.unshallow,
      Fits l := by
    intro l hl
    rcases List.mem_append.mp hl with hl | hl
    · obtain ⟨o, -, rfl⟩ := List.mem_map.mp hl
      exact fits_toHex o (by decide)
    · obtain ⟨o, -, rfl⟩ := List.mem_map.mp hl
      exact fits_toHex o (by decide)
  obtain ⟨lines, hlines⟩ := encodeLines_ok_iff.mpr hfits
  refine ⟨lines ++ flushPkt, except_bind_ok.mpr ⟨lines, hlines, rfl⟩, ?_⟩
  have hframed := (Framed.lines hlines).append (.single (p := .flush) rfl)
  rwa [List.map_append] at hframed

theorem framed_acks (acks : List Ack) :
    ∃ out, ReportStatus.encodeLines (acks.map Ack.line) = .ok out ∧
    Framed (acks.map fun a => linePacket a.line) out := by
  have hfits : ∀ l ∈ acks.map Ack.line, Fits l := by
    intro l hl
    obtain ⟨a, -, rfl⟩ := List.mem_map.mp hl
    exact fits_ack a
  obtain ⟨out, hout⟩ := encodeLines_ok_iff.mpr hfits
  refine ⟨out, hout, ?_⟩
  have hframed := Framed.lines hout
  rwa [List.map_map] at hframed

/-! ## What the client makes of it -/

theorem parseOidLine_toHex (id : ObjectId) :
    parseOidLine id.algo (toUtf8 (id.toHex ++ ['\n'])) = .ok id := by
  simp only [parseOidLine, fromUtf8_toUtf8, ObjectId.trim_toHex_line]
  exact ObjectId.fromHex_toHex_iff.mpr ⟨rfl, rfl⟩

theorem shallowPacket_shallow (id : ObjectId) (updates : List ObjectId × List ObjectId) :
    shallowPacket id.algo updates (linePacket (str "shallow " ++ id.toHex ++ ['\n'])) =
      .ok (updates.1 ++ [id], updates.2) := by
  have hstrip : stripPrefix? (bytes "shallow ") (toUtf8 (str "shallow " ++ id.toHex ++ ['\n'])) =
      some (toUtf8 (id.toHex ++ ['\n'])) := by
    rw [stripPrefix?_eq_some, List.append_assoc, toUtf8_append]
    rfl
  simp only [shallowPacket, linePacket, hstrip]
  rw [parseOidLine_toHex]
  rfl

theorem shallowPacket_unshallow (id : ObjectId) (updates : List ObjectId × List ObjectId) :
    shallowPacket id.algo updates (linePacket (str "unshallow " ++ id.toHex ++ ['\n'])) =
      .ok (updates.1, updates.2 ++ [id]) := by
  have hbytes : toUtf8 (str "unshallow " ++ id.toHex ++ ['\n']) =
      bytes "unshallow " ++ toUtf8 (id.toHex ++ ['\n']) := by
    rw [List.append_assoc, toUtf8_append]
    rfl
  have hother : stripPrefix? (bytes "shallow ")
    (bytes "unshallow " ++ toUtf8 (id.toHex ++ ['\n'])) = none := rfl
  have hstrip : stripPrefix? (bytes "unshallow ")
    (bytes "unshallow " ++ toUtf8 (id.toHex ++ ['\n'])) =
      some (toUtf8 (id.toHex ++ ['\n'])) := stripPrefix?_eq_some.mpr rfl
  simp only [shallowPacket, linePacket, hbytes, hother, hstrip]
  rw [parseOidLine_toHex]
  rfl

theorem foldlM_shallow {ids : List ObjectId} (hids : ∀ id ∈ ids, id.algo = algo)
    (updates : List ObjectId × List ObjectId) :
    (idPackets (str "shallow ") ids).foldlM (shallowPacket algo) updates =
      .ok (updates.1 ++ ids, updates.2) := by
  induction ids generalizing updates with
  | nil => simp [idPackets, idLines, pure, Except.pure]
  | cons id ids ih =>
      have hid := hids id List.mem_cons_self
      refine except_bind_ok.mpr ⟨_, hid ▸ shallowPacket_shallow id updates, ?_⟩
      rw [List.append_cons updates.1 id ids]
      exact ih (fun i hi => hids i (List.mem_cons_of_mem id hi)) (updates.1 ++ [id], updates.2)

theorem foldlM_unshallow {ids : List ObjectId} (hids : ∀ id ∈ ids, id.algo = algo)
    (updates : List ObjectId × List ObjectId) :
    (idPackets (str "unshallow ") ids).foldlM (shallowPacket algo) updates =
      .ok (updates.1, updates.2 ++ ids) := by
  induction ids generalizing updates with
  | nil => simp [idPackets, idLines, pure, Except.pure]
  | cons id ids ih =>
      have hid := hids id List.mem_cons_self
      refine except_bind_ok.mpr ⟨_, hid ▸ shallowPacket_unshallow id updates, ?_⟩
      rw [List.append_cons updates.2 id ids]
      exact ih (fun i hi => hids i (List.mem_cons_of_mem id hi)) (updates.1, updates.2 ++ [id])

/-- **The ids of a shallow section are read in order.** -/
theorem foldlM_shallowPackets {plan : Plan}
    (halgo : ∀ id ∈ plan.shallow ++ plan.unshallow, id.algo = algo) :
    (shallowPackets plan).foldlM (shallowPacket algo) ([], []) =
      .ok (plan.shallow, plan.unshallow) := by
  rw [shallowPackets, List.foldlM_append, List.foldlM_append,
    foldlM_shallow fun id hid => halgo id (List.mem_append_left _ hid)]
  show ((idPackets (str "unshallow ") plan.unshallow).foldlM _ _) >>= _ = _
  rw [foldlM_unshallow fun id hid => halgo id (List.mem_append_right _ hid)]
  rfl

theorem shallowPacket_ack (a : Ack) (updates : List ObjectId × List ObjectId) :
    shallowPacket algo updates (linePacket a.line) = .ok updates := by
  cases a <;> rfl

theorem foldlM_ignored {ps : List Packet}
    (h : ∀ p ∈ ps, ∀ updates, shallowPacket algo updates p = .ok updates)
    (updates : List ObjectId × List ObjectId) :
    ps.foldlM (shallowPacket algo) updates = .ok updates := by
  induction ps with
  | nil => rfl
  | cons p ps ih =>
      rw [List.foldlM_cons, h p List.mem_cons_self]
      exact ih fun q hq => h q (List.mem_cons_of_mem p hq)

theorem length_shallowPackets (plan : Plan) :
    (shallowPackets plan).length = plan.shallow.length + plan.unshallow.length + 1 := by
  simp [shallowPackets, idPackets, idLines, Nat.add_assoc]

/-- **The boundary is read from a section at the front**, whatever else follows it. -/
theorem parseShallowUpdates_framed {plan : Plan}
    (halgo : ∀ id ∈ plan.shallow ++ plan.unshallow, id.algo = algo)
    (hids : plan.shallow.length + plan.unshallow.length < maxPrepackPktlines)
    (h : Framed (shallowPackets plan ++ ps) out)
    (hps : ∀ p ∈ ps, ∀ updates, shallowPacket algo updates p = .ok updates) {rest : Bytes}
    (hrest : rest = [] ∨ packMagic <+: rest) :
    parseShallowUpdates algo (out ++ rest) = .ok (plan.shallow, plan.unshallow) := by
  have hlen : (shallowPackets plan).length ≤ maxPrepackPktlines := by
    rw [length_shallowPackets]
    omega
  rw [parseShallowUpdates, shallowScan_framed h, List.take_append, List.take_of_length_le hlen,
    List.foldlM_append, foldlM_shallowPackets halgo]
  show (List.foldlM _ _ _) >>= _ = _
  rw [foldlM_ignored fun p hp => hps p (List.mem_of_mem_take hp)]
  exact shallowScan_stop hrest _ _

theorem skipped_ack (a : Ack) : Skipped (linePacket a.line) := by
  cases a with
  | common o => exact fun b hb => by cases hb; decide
  | continue_ o => exact fun b hb => by cases hb; decide
  | ready o => exact fun b hb => by cases hb; decide
  | final o => exact fun b hb => by cases hb; decide
  | nak => exact fun b hb => by cases hb; decide

theorem skipped_shallowPackets (plan : Plan) : ∀ p ∈ shallowPackets plan, Skipped p := by
  intro p hp
  rw [shallowPackets, List.mem_append, List.mem_append, List.mem_singleton] at hp
  rcases hp with (hp | hp) | rfl
  · obtain ⟨l, hl, rfl⟩ := List.mem_map.mp hp
    obtain ⟨o, -, rfl⟩ := List.mem_map.mp hl
    exact fun b hb => by cases hb; decide
  · obtain ⟨l, hl, rfl⟩ := List.mem_map.mp hp
    obtain ⟨o, -, rfl⟩ := List.mem_map.mp hl
    exact fun b hb => by cases hb; decide
  · trivial

/-- **A multiplexed pack is put together again**, whatever is skipped before it. -/
theorem demuxSidebandPack_framed {before : Bytes} (hbefore : Framed ps before)
    (hskip : ∀ p ∈ ps, Skipped p) {chunks : List Bytes}
    (hchunks : Framed (chunks.map fun c => .data (1 :: c)) out)
    (hpack : packMagic <+: chunks.flatten) :
    demuxSidebandPack (before ++ (out ++ flushPkt)) = .ok chunks.flatten := by
  have hlen : ps.length + (chunks.length + 1) ≤ (before ++ (out ++ flushPkt)).length + 1 := by
    have hb := hbefore.length_le
    have hc := hchunks.length_le
    rw [List.length_map] at hc
    simp only [List.length_append, show flushPkt.length = 4 from rfl]
    omega
  obtain ⟨spare, hspare⟩ : ∃ spare, (before ++ (out ++ flushPkt)).length + 1 =
      spare + 1 + chunks.length + ps.length :=
    ⟨(before ++ (out ++ flushPkt)).length + 1 - (ps.length + (chunks.length + 1)), by omega⟩
  have hne : chunks.flatten.isEmpty = false := by
    obtain ⟨tail, htail⟩ := hpack
    rw [← htail]
    rfl
  have hflush := demuxGo_packet .flush spare [] chunks.flatten rfl
  rw [List.append_nil] at hflush
  rw [demuxSidebandPack, hspare, demuxGo_skipped hbefore hskip, demuxGo_chunks hchunks,
    List.nil_append, hflush]
  simp only [hne, Bool.false_eq_true, if_false]
  exact if_pos (List.isPrefixOf_iff_prefix.mpr hpack)

/-- What a server writes before the pack. -/
theorem framed_before (plan : Plan) (acks : List Ack) :
    ∃ boundary lines, encodeShallowSection plan = .ok boundary ∧
      ReportStatus.encodeLines (acks.map Ack.line) = .ok lines ∧
      Framed (shallowPackets plan ++ acks.map fun a => linePacket a.line) (boundary ++ lines) := by
  obtain ⟨boundary, hboundary, hframed⟩ := framed_shallowSection plan
  obtain ⟨lines, hlines, hacks⟩ := framed_acks acks
  exact ⟨boundary, lines, hboundary, hlines, hframed.append hacks⟩

theorem ignored_acks (acks : List Ack) : ∀ p ∈ acks.map fun a => linePacket a.line, ∀ updates,
    shallowPacket algo updates p = .ok updates := by
  intro p hp updates
  obtain ⟨a, -, rfl⟩ := List.mem_map.mp hp
  exact shallowPacket_ack a updates

/-- The response with a pack multiplexed in chunks of any size that fits. -/
theorem multiplexed_decoded {plan : Plan} {pack : Bytes} (acks : List Ack)
    (halgo : ∀ id ∈ plan.shallow ++ plan.unshallow, id.algo = algo)
    (hids : plan.shallow.length + plan.unshallow.length < maxPrepackPktlines)
    (hpack : packMagic <+: pack) {before body : Bytes} {n : Nat}
    (hbefore : Framed (shallowPackets plan ++ acks.map fun a => linePacket a.line) before)
    (hbody : Framed ((pack.toChunks n).map fun c => .data (1 :: c)) body) :
    parseShallowUpdates algo (before ++ (body ++ flushPkt)) = .ok (plan.shallow, plan.unshallow) ∧
      demuxSidebandPack (before ++ (body ++ flushPkt)) = .ok pack := by
  constructor
  · have hall := hbefore.append (hbody.append (.single (p := .flush) rfl))
    rw [List.append_assoc] at hall
    have hignored : ∀ p ∈ (acks.map fun a => linePacket a.line) ++
        ((pack.toChunks n).map (fun c => Packet.data (1 :: c)) ++ [.flush]),
        ∀ updates, shallowPacket algo updates p = .ok updates := by
      intro p hp updates
      rcases List.mem_append.mp hp with hp | hp
      · exact ignored_acks acks p hp updates
      rcases List.mem_append.mp hp with hp | hp
      · obtain ⟨c, -, rfl⟩ := List.mem_map.mp hp
        rfl
      · rw [List.mem_singleton.mp hp]
        rfl
    have hparse := parseShallowUpdates_framed halgo hids hall hignored (Or.inl rfl)
    rwa [List.append_nil] at hparse
  · have hskip : ∀ p ∈ shallowPackets plan ++ acks.map fun a => linePacket a.line, Skipped p := by
      intro p hp
      rcases List.mem_append.mp hp with hp | hp
      · exact skipped_shallowPackets plan p hp
      · obtain ⟨a, -, rfl⟩ := List.mem_map.mp hp
        exact skipped_ack a
    have hdemux := demuxSidebandPack_framed hbefore hskip hbody (by rwa [flatten_toChunks])
    rwa [flatten_toChunks] at hdemux

/-- The response with a raw pack. -/
theorem raw_decoded {plan : Plan} {pack : Bytes} (acks : List Ack)
    (halgo : ∀ id ∈ plan.shallow ++ plan.unshallow, id.algo = algo)
    (hids : plan.shallow.length + plan.unshallow.length < maxPrepackPktlines)
    (hpack : packMagic <+: pack) {before : Bytes}
    (hbefore : Framed (shallowPackets plan ++ acks.map fun a => linePacket a.line) before) :
    parseShallowUpdates algo (before ++ pack) = .ok (plan.shallow, plan.unshallow) ∧
      (stripToPack (before ++ pack) = .ok pack ↔ prepackLines plan acks < maxPrepackPktlines) := by
  have hne : pack ≠ [] := by
    rintro rfl
    cases List.prefix_nil.mp hpack
  have hstop : ∀ n, stripScan n pack = .ok pack := by
    intro n
    have hmagic := List.isPrefixOf_iff_prefix.mpr hpack
    cases n with
    | zero => rw [stripScan, if_pos hmagic]
    | succ n => rw [stripScan, if_pos hmagic]
  have hlen : (shallowPackets plan ++ acks.map fun a => linePacket a.line).length =
      prepackLines plan acks + 1 := by
    rw [List.length_append, length_shallowPackets, List.length_map, prepackLines]
    omega
  refine ⟨parseShallowUpdates_framed halgo hids hbefore (ignored_acks acks) (Or.inr hpack), ?_⟩
  rw [stripToPack, stripScan_framed hbefore hne, hlen, hstop]
  split
  · rename_i hle
    exact ⟨fun _ => hle, fun _ => rfl⟩
  · rename_i hle
    exact ⟨fun h => (by cases h), fun h => absurd h hle⟩

/-- **The client decodes what the server encodes.**  The boundary is read back as the plan has
it, and the pack as it was; without a sideband just when no more lines come before it than
are scanned, the flush of the boundary counted. -/
theorem response_decoded {plan : Plan} {pack : Bytes} (caps : Capabilities) (acks : List Ack)
    (halgo : ∀ id ∈ plan.shallow ++ plan.unshallow, id.algo = algo)
    (hids : plan.shallow.length + plan.unshallow.length < maxPrepackPktlines)
    (hpack : packMagic <+: pack) :
    ∃ out, encodeResponse caps plan acks pack = .ok out ∧
      parseShallowUpdates algo out = .ok (plan.shallow, plan.unshallow) ∧
      (caps.has (str "side-band-64k") = true ∨ caps.has (str "side-band") = true →
        demuxSidebandPack out = .ok pack) ∧
      (caps.has (str "side-band-64k") = false → caps.has (str "side-band") = false →
        (stripToPack out = .ok pack ↔ prepackLines plan acks < maxPrepackPktlines)) := by
  obtain ⟨boundary, lines, hboundary, hlines, hbefore⟩ := framed_before plan acks
  have hencode : ∀ body, encodePackStream caps pack = .ok body →
      encodeResponse caps plan acks pack = .ok (boundary ++ lines ++ body) := fun body hbody =>
    except_bind_ok.mpr ⟨_, hboundary,
      except_bind_ok.mpr ⟨_, hlines, except_bind_ok.mpr ⟨body, hbody, rfl⟩⟩⟩
  have hmultiplexed : ∀ n, 0 < n → n + 5 ≤ maxPktlineLen →
      encodePackStream caps pack = (sideband n pack).map (· ++ flushPkt) →
      ∃ out, encodeResponse caps plan acks pack = .ok out ∧
        parseShallowUpdates algo out = .ok (plan.shallow, plan.unshallow) ∧
          demuxSidebandPack out = .ok pack := by
    intro n hn hfit hstream
    obtain ⟨body, hbody, hframed⟩ := framed_sideband hn hfit pack
    refine ⟨_, hencode (body ++ flushPkt) ?_,
      multiplexed_decoded acks halgo hids hpack hbefore hframed⟩
    rw [hstream, hbody]
    rfl
  cases h64 : caps.has (str "side-band-64k") with
  | true =>
      obtain ⟨out, hout, hparse, hdemux⟩ := hmultiplexed (maxPktlineLen - 5) (by decide) (by decide)
        (by rw [encodePackStream, if_pos h64])
      exact ⟨out, hout, hparse, fun _ => hdemux, fun hno => by cases hno⟩
  | false =>
      cases hband : caps.has (str "side-band") with
      | true =>
          obtain ⟨out, hout, hparse, hdemux⟩ := hmultiplexed (1000 - 5) (by decide) (by decide)
            (by rw [encodePackStream, if_neg (by simp [h64]), if_pos hband])
          exact ⟨out, hout, hparse, fun _ => hdemux, fun _ hno => by cases hno⟩
      | false =>
          obtain ⟨hparse, hstrip⟩ := raw_decoded acks halgo hids hpack hbefore
          refine ⟨_, hencode pack ?_, hparse, fun h => by simp at h, fun _ _ => hstrip⟩
          rw [encodePackStream, if_neg (by simp [h64]), if_neg (by simp [hband])]

/-! ## Too many lines before a raw pack -/

namespace ResponseSample

/-- Nothing becomes shallow or no longer is. -/
def plan : Plan := ⟨BTreeSet.empty, BTreeSet.empty, [], []⟩

/-- **A pack behind as many acknowledgments as packets are scanned is not found.** -/
theorem not_decoded :
    ¬ ∀ (algo : HashAlgo) (caps : Capabilities) (plan : Plan) (acks : List Ack) (pack : Bytes),
    (∀ id ∈ plan.shallow ++ plan.unshallow, id.algo = algo) →
    plan.shallow.length + plan.unshallow.length ≤ 65000 → packMagic <+: pack →
    ∃ out, encodeResponse caps plan acks pack = .ok out ∧
      parseShallowUpdates algo out = .ok (plan.shallow, plan.unshallow) ∧
      (caps.has (str "side-band-64k") = true → demuxSidebandPack out = .ok pack) ∧
      (caps.has (str "side-band-64k") = false → caps.has (str "side-band") = false →
        stripToPack out = .ok pack) := by
  intro h
  have halgo : ∀ id ∈ plan.shallow ++ plan.unshallow, id.algo = .sha1 := by simp [plan]
  obtain ⟨out, hout, -, -, hstrip⟩ :=
    h .sha1 Capabilities.new plan (List.replicate maxPrepackPktlines .nak)
    packMagic halgo (by decide) List.prefix_rfl
  obtain ⟨boundary, lines, hboundary, hlines, hbefore⟩ :=
    framed_before plan (List.replicate maxPrepackPktlines .nak)
  have hwritten : encodeResponse Capabilities.new plan
    (List.replicate maxPrepackPktlines .nak) packMagic =
      .ok (boundary ++ lines ++ packMagic) :=
    except_bind_ok.mpr ⟨_, hboundary, except_bind_ok.mpr ⟨_, hlines, rfl⟩⟩
  rw [hout] at hwritten
  cases hwritten
  have hshort := (raw_decoded _ halgo (by decide) List.prefix_rfl hbefore).2.mp (hstrip rfl rfl)
  rw [prepackLines, List.length_replicate] at hshort
  omega

/-- A commit becomes shallow, and another no longer is. -/
def deepened : Plan := ⟨BTreeSet.empty, BTreeSet.empty, [.filled 1], [.filled 2]⟩

/-- The start of a pack of no objects. -/
def pack : Bytes := packMagic ++ [0, 0, 0, 2, 0, 0, 0, 0]

/-- A client that takes the pack on a sideband. -/
def banded : Capabilities := Capabilities.parse (str "ofs-delta side-band-64k")

/-- The boundary and the pack are read back from the sideband, and without one behind two
acknowledgments, which are few enough. -/
theorem decoded :
    (∃ out, encodeResponse banded deepened [.common (.filled 3), .nak] pack = .ok out ∧
      parseShallowUpdates .sha1 out = .ok ([.filled 1], [.filled 2]) ∧
        demuxSidebandPack out = .ok pack) ∧
    ∃ out, encodeResponse Capabilities.new deepened [.common (.filled 3), .nak] pack = .ok out ∧
      parseShallowUpdates .sha1 out = .ok ([.filled 1], [.filled 2]) ∧
        stripToPack out = .ok pack := by
  have halgo : ∀ id ∈ deepened.shallow ++ deepened.unshallow, id.algo = .sha1 := by decide
  have hspec := fun caps => response_decoded caps [.common (.filled 3), .nak] halgo (by decide)
    (List.prefix_append packMagic [0, 0, 0, 2, 0, 0, 0, 0])
  obtain ⟨out, hout, hboundary, hband, -⟩ := hspec banded
  obtain ⟨raw, hraw, hboundary', -, hstrip⟩ := hspec Capabilities.new
  exact ⟨⟨out, hout, hboundary, hband (Or.inl (by decide))⟩, raw, hraw, hboundary',
    (hstrip rfl rfl).mpr (by decide)⟩

end ResponseSample

end Puregit.Client
