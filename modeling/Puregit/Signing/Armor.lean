import Puregit.Refs.History
import Puregit.Signing.RoundTrip

/-! # The armor of other signers

Between the marker and the text of a packet an armor may have header lines, such as a version
or a comment, and a blank line ends them.  However the text is cut into lines, no byte of it is
taken for the checksum, `dearmor_render`: a line that starts with the filler holds nothing else.
But the header lines are taken for text, and spoil it: an armor comes off just when it has none.
-/
namespace Puregit

/-! ## The filler -/

namespace Base64

variable {ε : Type}

/-- Behind a filler there is nothing else. -/
theorem pairwise_encode (bs : Bytes) : (encode bs).Pairwise fun c d => c = '=' → d = '=' := by
  have hdigit : ∀ n < 64, digit n ≠ '=' := by decide +kernel
  have hcons : ∀ n < 64, ∀ l : Str, l.Pairwise (fun c d => c = '=' → d = '=') →
      (digit n :: l).Pairwise fun c d => c = '=' → d = '=' := fun n hn l hl =>
    List.pairwise_cons.mpr ⟨fun _ _ h => absurd h (hdigit n hn), hl⟩
  induction bs using encode.induct with
  | case1 => exact List.Pairwise.nil
  | case2 a =>
      have ha := a.toNat_lt
      exact hcons _ (by omega) _ (hcons _ (by omega) _ (by decide))
  | case3 a b =>
      have ha := a.toNat_lt
      have hb := b.toNat_lt
      exact hcons _ (by omega) _ (hcons _ (by omega) _ (hcons _ (by omega) _ (by decide)))
  | case4 a b c rest ih =>
      have ha := a.toNat_lt
      have hb := b.toNat_lt
      have hc := c.toNat_lt
      exact hcons _ (by omega) _ (hcons _ (by omega) _
        (hcons _ (by omega) _ (hcons _ (by omega) _ ih)))

/-- What reads on in the same way is read in the same way. -/
theorem decodeLoop_append_congr {bad : ε} {rest rest' : Bytes}
    (h : ∀ acc bits, decodeLoop bad rest acc bits = decodeLoop bad rest' acc bits) (data : Bytes)
    (acc bits : Nat) :
    decodeLoop bad (data ++ rest) acc bits = decodeLoop bad (data ++ rest') acc bits := by
  induction data generalizing acc bits with
  | nil => exact h acc bits
  | cons c data ih =>
      simp only [List.cons_append, decodeLoop, ih]

/-- The filler does not matter. -/
theorem decode_filter (bad : ε) (text : Str) :
    decode bad (text.filter (· ≠ '=')) = decode bad text := by
  have hloop : ∀ acc bits, decodeLoop bad (toUtf8 (text.filter (· ≠ '='))) acc bits =
      decodeLoop bad (toUtf8 text) acc bits := by
    induction text with
    | nil => exact fun _ _ => rfl
    | cons c text ih =>
        by_cases hc : c = '='
        · subst hc
          intro acc bits
          rw [decodeLoop_filler, List.filter_cons_of_neg (by decide)]
          exact ih acc bits
        · intro acc bits
          rw [List.filter_cons_of_pos (by simpa using hc), toUtf8_cons, toUtf8_cons]
          exact decodeLoop_append_congr ih _ acc bits
  exact hloop 0 0

/-- A byte that means nothing spoils a text. -/
theorem decodeLoop_bad {bad : ε} {b : UInt8} (hfiller : isFiller b = false)
    (hvalue : value b = none) {data : Bytes} (h : b ∈ data) (acc bits : Nat) :
    decodeLoop bad data acc bits = .error bad := by
  induction data generalizing acc bits with
  | nil => cases h
  | cons c rest ih =>
      rw [decodeLoop]
      rcases List.mem_cons.mp h with rfl | h
      · rw [if_neg (by rw [hfiller]; exact Bool.false_ne_true), hvalue]
      · split
        · exact ih h _ _
        split
        · rfl
        · simp only
          split
          · rw [ih h]
            rfl
          · exact ih h _ _

end Base64

/-! ## Lines -/

/-- A line is read before what follows it. -/
theorem lines_append {l : Str} (h : '\n' ∉ l) (rest : Str) :
    lines (l ++ '\n' :: rest) = chompCr l :: lines rest := by
  have hne : rest.splitOn '\n' ≠ [] := List.splitOn_ne_nil '\n' rest
  simp only [lines]
  rw [List.splitOn_append_cons_self_of_not_mem h, List.getLast?_cons_of_ne_nil hne,
    List.dropLast_cons_of_ne_nil hne]
  split <;> rfl

/-- A line is trimmed to the same with and without a carriage return. -/
theorem trim_chompCr (l : Str) : trim (chompCr l) = trim l := by
  rw [chompCr]
  split
  · rename_i hlast
    obtain ⟨init, rfl⟩ := List.getLast?_eq_some_iff.mp hlast
    rw [List.dropLast_concat, ← trim_rdropWhile (init ++ _),
      List.rdropWhile_concat_pos isWhitespace _ _ (by decide),
      trim_rdropWhile]
  · rfl

/-! ## The armor -/

namespace Pgp

/-- The lines of an armor before its last one. -/
structure ArmorText where
  headers : List Str
  blank : Str
  body : List Str
  checksum : Option Str

namespace ArmorText

/-- The lines, one after the other. -/
def lines (a : ArmorText) : List Str :=
  beginLine :: (a.headers ++ a.blank :: (a.body ++ (a.checksum.map ('=' :: ·)).toList))

/-- A header line: a key and a value. -/
def IsHeader (l : Str) : Prop := ∃ key value, l = key ++ str ": " ++ value

/-- The lines are an armor of the packet, cut anywhere. -/
structure Of (a : ArmorText) (packet : Bytes) : Prop where
  headers : ∀ l ∈ a.headers, '\n' ∉ l ∧ IsHeader l
  blank : '\n' ∉ a.blank ∧ trim a.blank = []
  body : a.body.flatten = Base64.encode packet
  checksum : ∀ c ∈ a.checksum, c = Base64.encode (Sha.bigEndian 3 (crc24 packet))

end ArmorText

/-- Lines as they are written, each with a newline or with a carriage return before it. -/
def render (ls : List (Str × Bool)) : Str :=
  ls.flatMap fun l => l.1 ++ if l.2 then [Char.ofNat 13, '\n'] else ['\n']

/-- The last line of an armor and what follows it. -/
def IsEnding (text : Str) : Prop :=
  text = endLine ∨ ∃ rest, text = endLine ++ '\n' :: rest ∨
    text = endLine ++ Char.ofNat 13 :: '\n' :: rest

/-- What is made of a line within the markers. -/
def kept (l : Str) : Str := if trim l ≠ [] ∧ (trim l).head? ≠ some '=' then trim l else []

/-- Only what the lines are without white space counts. -/
theorem bodyOf_congr {ls ls' : List Str} (h : ls.map trim = ls'.map trim) (inside : Bool) :
    bodyOf inside ls = bodyOf inside ls' := by
  induction ls generalizing ls' inside with
  | nil =>
      rw [List.map_nil] at h
      rw [List.map_eq_nil_iff.mp h.symm]
  | cons l ls ih =>
      cases ls' with
      | nil => cases h
      | cons l' ls' =>
          obtain ⟨htrim, h⟩ := List.cons.inj h
          rw [bodyOf, bodyOf]
          simp only [htrim, ih h]

/-- Within the markers the lines are put together as far as they count. -/
theorem bodyOf_kept {ls : List Str} (h : ∀ l ∈ ls, trim l ≠ beginLine ∧ trim l ≠ endLine)
    (rest : List Str) :
    bodyOf true (ls ++ rest) = ls.flatMap kept ++ bodyOf true rest := by
  induction ls with
  | nil => rfl
  | cons l ls ih =>
      obtain ⟨⟨hbegin, hend⟩, hls⟩ := List.forall_mem_cons.mp h
      rw [List.cons_append, bodyOf, List.flatMap_cons, List.append_assoc, kept]
      simp only [if_neg hbegin, if_neg hend, true_and, ih hls]
      split
      · rfl
      · exact (List.nil_append _).symm

/-- Written lines are read back, but for white space at their ends. -/
theorem lines_render {ls : List (Str × Bool)} (h : ∀ l ∈ ls, '\n' ∉ l.1) (rest : Str) :
    (Puregit.lines (render ls ++ rest)).map trim =
      ls.map (trim ·.1) ++ (Puregit.lines rest).map trim := by
  induction ls with
  | nil => rfl
  | cons l ls ih =>
      obtain ⟨hl, hls⟩ := List.forall_mem_cons.mp h
      obtain ⟨l, crlf⟩ := l
      have hcr : '\n' ∉ l ++ [Char.ofNat 13] := by
        rw [List.mem_append, not_or]
        exact ⟨hl, by decide⟩
      have htrim : trim (l ++ [Char.ofNat 13]) = trim l := by
        rw [← trim_rdropWhile (l ++ _), List.rdropWhile_concat_pos isWhitespace _ _ (by decide),
          trim_rdropWhile]
      cases crlf with
      | false =>
          have hrender : render ((l, false) :: ls) ++ rest = l ++ '\n' :: (render ls ++ rest) := by
            rw [render, List.flatMap_cons, ← render]
            simp
          rw [hrender, lines_append hl, List.map_cons, trim_chompCr, ih hls]
          rfl
      | true =>
          have hrender : render ((l, true) :: ls) ++ rest =
              (l ++ [Char.ofNat 13]) ++ '\n' :: (render ls ++ rest) := by
            rw [render, List.flatMap_cons, ← render]
            simp
          rw [hrender, lines_append hcr, List.map_cons, trim_chompCr, htrim, ih hls]
          rfl

/-- Nothing behind the last line is read. -/
theorem bodyOf_ending {text : Str} (h : IsEnding text) : bodyOf true (Puregit.lines text) = [] := by
  have hnl : '\n' ∉ endLine ∧ '\n' ∉ endLine ++ [Char.ofNat 13] := by decide
  have hline : Puregit.lines endLine = [endLine] ∧ chompCr endLine = endLine ∧
      chompCr (endLine ++ [Char.ofNat 13]) = endLine := by decide
  have hend : ∀ more, bodyOf true (endLine :: more) = [] := by
    intro more
    have htrim : trim endLine = endLine := by decide
    rw [bodyOf, htrim]
    exact (if_neg (by decide)).trans (if_pos rfl)
  rcases h with rfl | ⟨rest, rfl | rfl⟩
  · rw [hline.1]
    exact hend []
  · rw [lines_append hnl.1, hline.2.1]
    exact hend _
  · have hcr : endLine ++ Char.ofNat 13 :: '\n' :: rest =
      (endLine ++ [Char.ofNat 13]) ++ '\n' :: rest := by simp
    rw [hcr, lines_append hnl.2, hline.2.2]
    exact hend _

/-- What is not white space stays. -/
theorem mem_trim {l : Str} {c : Char} (hc : isWhitespace c = false) (h : c ∈ l) : c ∈ trim l := by
  have hdrop : ∀ l : Str, c ∈ l → c ∈ l.dropWhile isWhitespace := by
    intro l hl
    rw [← List.takeWhile_append_dropWhile (p := isWhitespace) (l := l)] at hl
    rcases List.mem_append.mp hl with hl | hl
    · exact absurd (List.mem_takeWhile_imp hl) (by rw [hc]; exact Bool.false_ne_true)
    · exact hl
  rw [trim, List.mem_reverse]
  exact hdrop _ (List.mem_reverse.mpr (hdrop l h))

/-- Of a piece of a text only the filler may be dropped. -/
theorem kept_piece {packet : Bytes} {before piece after : Str}
    (h : before ++ (piece ++ after) = Base64.encode packet) :
    (trim piece ≠ beginLine ∧ trim piece ≠ endLine) ∧
      (kept piece).filter (· ≠ '=') = piece.filter (· ≠ '=') := by
  have hmem : ∀ c ∈ piece, c ∈ Base64.encode packet := by
    intro c hc
    rw [← h]
    exact List.mem_append_right _ (List.mem_append_left _ hc)
  have htrim : trim piece = piece := trim_of_not_whitespace fun c hc =>
    (Base64.char_spec (hmem c hc)).1
  have hdash : '-' ∉ piece := fun hc => (Base64.char_spec (hmem _ hc)).2 rfl
  rw [htrim]
  refine ⟨⟨?_, ?_⟩, ?_⟩
  · rintro rfl
    exact hdash (by decide)
  · rintro rfl
    exact hdash (by decide)
  rw [kept, htrim]
  split
  · rfl
  rename_i hdropped
  cases piece with
  | nil => rfl
  | cons c piece =>
      have hc : c = '=' := by
        by_contra hc
        exact hdropped ⟨List.cons_ne_nil _ _, fun h => hc (Option.some.inj h)⟩
      have hpair := Base64.pairwise_encode packet
      rw [← h] at hpair
      have hpiece := (List.pairwise_append.mp (List.pairwise_append.mp hpair).2.1).1
      have hall := (List.pairwise_cons.mp hpiece).1
      rw [List.filter_nil, eq_comm, List.filter_eq_nil_iff]
      intro d hd
      rcases List.mem_cons.mp hd with rfl | hd
      · simpa using hc
      · simpa using hall d hd hc

/-- What is kept of the pieces of a text says what the text does. -/
theorem kept_body {packet : Bytes} {body : List Str} {before : Str}
    (h : before ++ body.flatten = Base64.encode packet) :
    (∀ l ∈ body, trim l ≠ beginLine ∧ trim l ≠ endLine) ∧
      (body.flatMap kept).filter (· ≠ '=') = body.flatten.filter (· ≠ '=') := by
  induction body generalizing before with
  | nil => exact ⟨fun l hl => absurd hl List.not_mem_nil, rfl⟩
  | cons piece body ih =>
      obtain ⟨hmarkers, hpiece⟩ := kept_piece h
      have hrest : (before ++ piece) ++ body.flatten = Base64.encode packet := by
        rw [List.append_assoc, ← List.flatten_cons, h]
      obtain ⟨hall, hbody⟩ := ih hrest
      refine ⟨List.forall_mem_cons.mpr ⟨hmarkers, hall⟩, ?_⟩
      rw [List.flatMap_cons, List.flatten_cons, List.filter_append, List.filter_append,
        hpiece, hbody]

/-- The text between the markers: the header lines as far as they are taken for text, and the
text of the packet but for some filler. -/
theorem bodyOf_render {a : ArmorText} {packet : Bytes} (h : a.Of packet) {ls : List (Str × Bool)}
    (hls : ls.map (·.1) = a.lines) {ending : Str} (hending : IsEnding ending) :
    bodyOf false (Puregit.lines (render ls ++ ending)) =
      a.headers.flatMap kept ++ a.body.flatMap kept := by
  have hwhite : ∀ c ∈ a.checksum, ∀ d ∈ '=' :: c, isWhitespace d = false := by
    intro c hc
    rw [h.checksum c hc]
    exact checksum_not_whitespace _
  have hchecksum : ∀ l ∈ (a.checksum.map ('=' :: ·)).toList, trim l = l ∧ l.head? = some '=' := by
    intro l hl
    obtain ⟨c, hc, rfl⟩ := Option.map_eq_some_iff.mp (Option.mem_toList.mp hl)
    exact ⟨trim_of_not_whitespace (hwhite c hc), rfl⟩
  obtain ⟨hbody, -⟩ := @kept_body _ _ [] h.body
  have hmarkers : ∀ l ∈ a.headers ++ a.blank :: (a.body ++ (a.checksum.map ('=' :: ·)).toList),
      trim l ≠ beginLine ∧ trim l ≠ endLine := by
    intro l hl
    rcases List.mem_append.mp hl with hl | hl
    · obtain ⟨key, value, rfl⟩ := (h.headers l hl).2
      have hcolon : ':' ∈ trim (key ++ str ": " ++ value) :=
        mem_trim (by decide) (List.mem_append_left _ (List.mem_append_right _ (by decide)))
      exact ⟨fun heq => absurd (heq ▸ hcolon) (by decide), fun heq =>
        absurd (heq ▸ hcolon) (by decide)⟩
    rcases List.mem_cons.mp hl with rfl | hl
    · rw [h.blank.2]
      decide
    rcases List.mem_append.mp hl with hl | hl
    · exact hbody l hl
    · obtain ⟨htrim, hhead⟩ := hchecksum l hl
      rw [htrim]
      constructor
      · rintro rfl
        cases hhead
      · rintro rfl
        cases hhead
  have hnl : ∀ l ∈ ls, '\n' ∉ l.1 := by
    have hall : ∀ l ∈ a.lines, '\n' ∉ l := by
      intro l hl
      rcases List.mem_cons.mp hl with rfl | hl
      · decide
      rcases List.mem_append.mp hl with hl | hl
      · exact (h.headers l hl).1
      rcases List.mem_cons.mp hl with rfl | hl
      · exact h.blank.1
      rcases List.mem_append.mp hl with hl | hl
      · intro hmem
        have hc : '\n' ∈ Base64.encode packet := by
          rw [← h.body]
          exact List.mem_flatten_of_mem hl hmem
        exact absurd (Base64.char_spec hc).1 (by decide)
      · obtain ⟨c, hc, rfl⟩ := Option.map_eq_some_iff.mp (Option.mem_toList.mp hl)
        exact fun hmem => absurd (hwhite c hc _ hmem) (by decide)
    rw [← hls] at hall
    exact fun l hl => hall l.1 (List.mem_map_of_mem hl)
  have hcongr : bodyOf false (Puregit.lines (render ls ++ ending)) =
      bodyOf false (a.lines ++ Puregit.lines ending) := by
    refine bodyOf_congr ?_ false
    rw [lines_render hnl, List.map_append, ← hls, List.map_map]
    rfl
  have hbegin : trim beginLine = beginLine := by decide
  rw [hcongr, ArmorText.lines, List.cons_append, bodyOf, hbegin]
  refine (if_pos rfl).trans ?_
  rw [bodyOf_kept hmarkers, bodyOf_ending hending, List.append_nil, List.flatMap_append,
    List.flatMap_cons,
    List.flatMap_append]
  have hblank : kept a.blank = [] := by
    rw [kept, h.blank.2]
    rfl
  have hlast : (a.checksum.map ('=' :: ·)).toList.flatMap kept = [] := by
    rw [List.flatMap_eq_nil_iff]
    intro l hl
    obtain ⟨htrim, hhead⟩ := hchecksum l hl
    rw [kept, htrim, if_neg fun hk => hk.2 hhead]
  rw [hblank, hlast, List.nil_append, List.append_nil]

/-- **An armor comes off** just when none of its header lines is taken for text. -/
theorem dearmor_render {a : ArmorText} {packet : Bytes} (h : a.Of packet) (hne : packet ≠ [])
    {ls : List (Str × Bool)} (hls : ls.map (·.1) = a.lines) {ending : Str}
    (hending : IsEnding ending) :
    dearmor (toUtf8 (render ls ++ ending)) = .ok packet ↔
      ∀ l ∈ a.headers, (trim l).head? = some '=' := by
  have hbody := bodyOf_render h hls hending
  rw [dearmor, fromUtf8_toUtf8]
  simp only [hbody]
  constructor
  · intro hok
    by_contra hnot
    simp only [not_forall] at hnot
    obtain ⟨l, hl, hhead⟩ := hnot
    obtain ⟨key, value, heq⟩ := (h.headers l hl).2
    have hcolon : ':' ∈ trim l := by
      rw [heq]
      exact mem_trim (by decide) (List.mem_append_left _ (List.mem_append_right _ (by decide)))
    have hkept : ':' ∈ a.headers.flatMap kept ++ a.body.flatMap kept := by
      refine List.mem_append_left _ (List.mem_flatMap.mpr ⟨l, hl, ?_⟩)
      rw [kept, if_pos ⟨List.ne_nil_of_mem hcolon, hhead⟩]
      exact hcolon
    have hbyte : (58 : UInt8) ∈ toUtf8 (a.headers.flatMap kept ++ a.body.flatMap kept) :=
      (ascii_mem_toUtf8 (by decide)).mpr hkept
    rw [if_neg (List.ne_nil_of_mem hkept), Base64.decode,
      Base64.decodeLoop_bad rfl rfl hbyte] at hok
    cases hok
  · intro hheaders
    have hdropped : a.headers.flatMap kept = [] := by
      rw [List.flatMap_eq_nil_iff]
      intro l hl
      rw [kept, if_neg fun hk => hk.2 (hheaders l hl)]
    have hdecode : Base64.decode (.protocol (str "ssh signature: bad base64"))
      (a.body.flatMap kept) =
        (.ok packet : Except Error Bytes) := by
      rw [← Base64.decode_filter, (@kept_body _ _ [] h.body).2, Base64.decode_filter, h.body,
        Base64.decode_encode]
    rw [hdropped, List.nil_append, hdecode]
    refine if_neg fun hnil => hne ?_
    rw [hnil] at hdecode
    cases hdecode
    rfl

/-- The armor of two bytes with some header lines, its text in three lines. -/
def twoBytes (headers : List Str) : ArmorText :=
  ⟨headers, [], [str "A", str "QI", str "="], some (Base64.encode (Sha.bigEndian 3 (crc24 [1, 2])))⟩

theorem of_twoBytes {headers : List Str} (h : ∀ l ∈ headers, '\n' ∉ l ∧ ArmorText.IsHeader l) :
    (twoBytes headers).Of [1, 2] := by
  have hbody : [str "A", str "QI", str "="].flatten = Base64.encode [1, 2] := by decide
  exact ⟨h, ⟨List.not_mem_nil, rfl⟩, hbody, fun _ hc => (Option.some.inj hc).symm⟩

/-- With a header line that begins as the checksum does the armor comes off, also with carriage
returns. -/
theorem dearmor_render_note :
    dearmor (toUtf8 (render ((twoBytes [str "=Note: x"]).lines.map fun l => (l, true)) ++ endLine))
      = .ok [1, 2] := by
  have hof : (twoBytes [str "=Note: x"]).Of [1, 2] := by
    refine of_twoBytes fun l hl => ?_
    obtain rfl := List.mem_singleton.mp hl
    exact ⟨by decide, str "=Note", str "x", rfl⟩
  have hheaders : ∀ l ∈ (twoBytes [str "=Note: x"]).headers, (trim l).head? = some '=' :=
    fun l hl => (List.mem_singleton.mp hl) ▸ by decide
  exact (dearmor_render hof (by decide) (by rw [List.map_map]; exact List.map_id _)
    (Or.inl rfl)).mpr hheaders

/-- **With a version the armor does not come off.** -/
theorem not_dearmor_version : (twoBytes [str "Version: GnuPG v1"]).Of [1, 2] ∧
    dearmor (toUtf8 (render ((twoBytes [str "Version: GnuPG v1"]).lines.map fun l =>
      (l, false)) ++ endLine)) =
      .error (.protocol (str "ssh signature: bad base64")) := by
  have hof : (twoBytes [str "Version: GnuPG v1"]).Of [1, 2] := by
    refine of_twoBytes fun l hl => ?_
    obtain rfl := List.mem_singleton.mp hl
    exact ⟨by decide, str "Version", str "GnuPG v1", rfl⟩
  refine ⟨hof, ?_⟩
  have hbody :=
    @bodyOf_render _ _ hof ((twoBytes [str "Version: GnuPG v1"]).lines.map fun l => (l, false))
    (by rw [List.map_map]; exact List.map_id _) _ (Or.inl rfl)
  have hkept : (twoBytes [str "Version: GnuPG v1"]).headers.flatMap kept ++
      (twoBytes [str "Version: GnuPG v1"]).body.flatMap kept = str "Version: GnuPG v1AQI" := by
        decide
  rw [dearmor, fromUtf8_toUtf8]
  simp only [hbody, hkept]
  decide

end Pgp
end Puregit
