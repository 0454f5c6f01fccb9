import Puregit.Protocol.RoundTrip
import Puregit.Server.Discovery

/-! # Push requests

A push is written as a line for each command, its two ids and the name of its ref, the first
with the capabilities after a NUL.  The parser takes of a name what is before its first space:
a request is read back just when no name has one and the capabilities are what their text says,
`PushRequest.readBack_iff`.
-/
namespace Puregit
open PktLine Server

namespace Capabilities

/-- What is read from a text has no name with `=`, and no flag without a name. -/
theorem items_parse {s : Str} : ∀ item ∈ (parse s).items, '=' ∉ item.1 ∧ item ≠ ([], none) := by
  intro item hitem
  obtain ⟨token, htoken, rfl⟩ := List.mem_map.mp hitem
  have hne : token ≠ [] := by
    have hkept := List.of_mem_filter htoken
    rintro rfl
    cases hkept
  cases hsplit : splitOnce '=' token with
  | none =>
      refine ⟨splitOnce_eq_none.mp hsplit, fun h => hne ?_⟩
      exact congrArg Prod.fst h
  | some parts =>
      refine ⟨(splitOnce_eq_some.mp hsplit).2, fun h => ?_⟩
      exact Option.some_ne_none parts.2 (congrArg Prod.snd h)

/-- **Capabilities are read back** just when their text shows what they are. -/
theorem parse_toWire_iff {c : Capabilities}
    (h : ∀ item ∈ c.items, ' ' ∉ item.1 ∧ ∀ value ∈ item.2, ' ' ∉ value) :
    parse c.toWire = c ↔ ∀ item ∈ c.items, '=' ∉ item.1 ∧ item ≠ ([], none) := by
  constructor
  · intro heq
    rw [← heq]
    exact items_parse
  · intro hitems
    have hsep : c.Separable := fun item hitem =>
      ⟨(h item hitem).1, (hitems item hitem).1, (h item hitem).2⟩
    rw [parse_toWire hsep, named, List.filter_eq_self.mpr fun item hitem => ?_]
    exact decide_eq_true (hitems item hitem).2

end Capabilities

namespace PushRequest

/-- The text of a command. -/
def commandText (c : RefUpdateCommand) : Str := c.old.toHex ++ ' ' :: (c.new.toHex ++ ' ' :: c.name)

/-- The text of the first command's line. -/
def firstText (req : PushRequest) (c : RefUpdateCommand) : Str :=
  if req.capabilities.toWire.isEmpty then commandText c
  else commandText c ++ Char.ofNat 0 :: req.capabilities.toWire

/-- The texts of the lines. -/
def texts (req : PushRequest) : List Str :=
  match req.commands with
  | [] => []
  | c :: cs => req.firstText c :: cs.map commandText

/-- Encodes the command section, ended by a flush. -/
def encode (req : PushRequest) : Except Error Bytes :=
  if req.commands.isEmpty then .error (.protocol (str "push: no commands"))
  else do
    let lines ← ReportStatus.encodeLines (req.texts.map (· ++ ['\n']))
    .ok (lines ++ flushPkt)

/-- A command as it is read: the name up to its first space. -/
def readCommand (c : RefUpdateCommand) : RefUpdateCommand := { c with name := firstWord c.name }

/-- Both ids of a command are of an algorithm. -/
def OfAlgo (algo : HashAlgo) (c : RefUpdateCommand) : Prop := c.old.algo = algo ∧ c.new.algo = algo

instance (algo : HashAlgo) (c : RefUpdateCommand) : Decidable (OfAlgo algo c) :=
  inferInstanceAs (Decidable (_ ∧ _))

theorem splitOn_commandText (c : RefUpdateCommand) :
    ∃ more, (commandText c).splitOn ' ' =
      c.old.toHex :: c.new.toHex :: firstWord c.name :: more := by
  obtain ⟨more, hmore⟩ := splitOn_space c.name
  refine ⟨more, ?_⟩
  rw [commandText, List.splitOn_append_cons_self_of_not_mem (space_not_mem_toHex c.old),
    List.splitOn_append_cons_self_of_not_mem (space_not_mem_toHex c.new), hmore]

theorem map_readCommand {cs : List RefUpdateCommand} :
    cs.map readCommand = cs ↔ ∀ c ∈ cs, ' ' ∉ c.name := by
  have hname : ∀ c : RefUpdateCommand, readCommand c = c ↔ ' ' ∉ c.name := by
    intro c
    rw [← firstWord_eq_self]
    constructor
    · intro h
      exact congrArg RefUpdateCommand.name h
    · intro h
      rw [readCommand, h]
  have hid : cs.map readCommand = cs ↔ cs.map readCommand = cs.map id := by rw [List.map_id]
  rw [hid, List.map_inj_left]
  exact forall₂_congr fun c _ => hname c

section
variable {algo : HashAlgo}

/-- The line of a command is read where its ids are of the algorithm. -/
theorem line_command {s s' : State} {l : Bytes} {c : RefUpdateCommand} {caps : Option Bytes}
    {capabilities : Capabilities} (hsplit : splitCaps s.first l = (toUtf8 (commandText c), caps))
    (hcaps : lineCaps s caps = .ok capabilities) :
    line algo s l = .ok s' ↔ OfAlgo algo c ∧
      s' = ⟨⟨s.req.commands ++ [readCommand c], capabilities⟩, false⟩ := by
  obtain ⟨more, hmore⟩ := splitOn_commandText c
  have hline : line algo s l = (do
      let old ← ObjectId.fromHex algo c.old.toHex
      let new ← ObjectId.fromHex algo c.new.toHex
      .ok ⟨⟨s.req.commands ++ [⟨old, new, firstWord c.name⟩], capabilities⟩, false⟩) := by
    rw [line, hsplit]
    simp only
    rw [hcaps, except_ok_bind, utf8OrProtocol, fromUtf8_toUtf8]
    simp only [except_ok_bind]
    rw [hmore]
  rw [hline]
  constructor
  · intro h
    obtain ⟨old, hold, h⟩ := except_bind_ok.mp h
    obtain ⟨new, hnew, h⟩ := except_bind_ok.mp h
    obtain ⟨halgo, rfl⟩ := ObjectId.fromHex_toHex_iff.mp hold
    obtain ⟨halgo', rfl⟩ := ObjectId.fromHex_toHex_iff.mp hnew
    cases h
    exact ⟨⟨halgo, halgo'⟩, rfl⟩
  · rintro ⟨⟨hold, hnew⟩, rfl⟩
    rw [ObjectId.fromHex_toHex_iff.mpr ⟨hold, rfl⟩, except_ok_bind,
      ObjectId.fromHex_toHex_iff.mpr ⟨hnew, rfl⟩]
    rfl

/-- Further commands are put to those already read. -/
theorem foldlM_commands {cs : List RefUpdateCommand} {s s' : State} (hfirst : s.first = false) :
    (cs.map commandText).foldlM (fun s l => line algo s (toUtf8 l)) s = .ok s' ↔
      (∀ c ∈ cs, OfAlgo algo c) ∧
        s' = ⟨⟨s.req.commands ++ cs.map readCommand, s.req.capabilities⟩, false⟩ := by
  induction cs generalizing s with
  | nil =>
      obtain ⟨⟨commands, capabilities⟩, first⟩ := s
      cases hfirst
      rw [List.map_nil, List.foldlM_nil, List.map_nil, List.append_nil]
      constructor
      · intro h
        cases h
        exact ⟨fun c hc => absurd hc List.not_mem_nil, rfl⟩
      · rintro ⟨-, rfl⟩
        rfl
  | cons c cs ih =>
      have hsplit : splitCaps s.first (toUtf8 (commandText c)) =
          (toUtf8 (commandText c), none) := by
        rw [splitCaps, if_neg (by rw [hfirst]; exact Bool.false_ne_true)]
      rw [List.map_cons, List.foldlM_cons, except_bind_ok, List.forall_mem_cons, List.map_cons]
      constructor
      · rintro ⟨s₁, hs₁, hrest⟩
        obtain ⟨halgo, rfl⟩ := (line_command hsplit rfl).mp hs₁
        obtain ⟨hall, rfl⟩ := (ih rfl).mp hrest
        exact ⟨⟨halgo, hall⟩, by simp⟩
      · rintro ⟨⟨halgo, hall⟩, rfl⟩
        refine ⟨_, (line_command hsplit rfl).mpr ⟨halgo, rfl⟩, (ih rfl).mpr ⟨hall, ?_⟩⟩
        simp

theorem zero_not_mem_commandText {c : RefUpdateCommand} (h : Char.ofNat 0 ∉ c.name) :
    (0 : UInt8) ∉ toUtf8 (commandText c) := by
  have hhex : ∀ id : ObjectId, Char.ofNat 0 ∉ id.toHex :=
    fun id hmem => absurd (ObjectId.mem_toHex hmem) (by decide)
  rw [ascii_mem_toUtf8 (by decide)]
  show Char.ofNat 0 ∉ _
  rw [commandText, List.mem_append, List.mem_cons, List.mem_append, List.mem_cons]
  rintro (hmem | hmem | hmem | hmem | hmem)
  · exact hhex _ hmem
  · cases hmem
  · exact hhex _ hmem
  · cases hmem
  · exact h hmem

/-- The first command is read with the capabilities. -/
theorem line_firstText {req : PushRequest} {c : RefUpdateCommand} {s' : State}
    (h : Char.ofNat 0 ∉ c.name) :
    line algo ⟨⟨[], Capabilities.new⟩, true⟩ (toUtf8 (req.firstText c)) = .ok s' ↔
      OfAlgo algo c ∧
        s' = ⟨⟨[readCommand c], Capabilities.parse req.capabilities.toWire⟩, false⟩ := by
  have hzero := zero_not_mem_commandText h
  rw [firstText]
  by_cases hempty : req.capabilities.toWire.isEmpty = true
  · rw [if_pos hempty, List.isEmpty_iff.mp hempty]
    have hsplit : splitCaps true (toUtf8 (commandText c)) = (toUtf8 (commandText c), none) := by
      rw [splitCaps, if_pos rfl, splitOnce_eq_none.mpr hzero]
    exact line_command (s := ⟨⟨[], Capabilities.new⟩, true⟩) hsplit rfl
  · rw [if_neg hempty, toUtf8_append, toUtf8_cons, show utf8Char (Char.ofNat 0) = [0] from rfl]
    have hsplit : splitCaps true (toUtf8 (commandText c) ++
      ([0] ++ toUtf8 req.capabilities.toWire)) =
        (toUtf8 (commandText c), some (toUtf8 req.capabilities.toWire)) := by
      have hcut : splitOnce 0 (toUtf8 (commandText c) ++ ([0] ++ toUtf8 req.capabilities.toWire)) =
          some (toUtf8 (commandText c), toUtf8 req.capabilities.toWire) :=
            splitOnce_eq_some.mpr ⟨rfl, hzero⟩
      rw [splitCaps, if_pos rfl, hcut]
    refine line_command (s := ⟨⟨[], Capabilities.new⟩, true⟩) hsplit ?_
    rw [lineCaps, utf8OrProtocol, fromUtf8_toUtf8]
    rfl

/-- **What a server reads** of an encoded push: each name up to its first space. -/
theorem parse_encoded {req req' : PushRequest} {out : Bytes}
    (hnames : ∀ c ∈ req.commands, Char.ofNat 0 ∉ c.name) (hout : req.encode = .ok out) :
      (decodeAll out >>= parse algo) = .ok req' ↔
      (∀ c ∈ req.commands, OfAlgo algo c) ∧
        req' = ⟨req.commands.map readCommand, Capabilities.parse req.capabilities.toWire⟩ := by
  rw [encode] at hout
  split at hout
  · cases hout
  rename_i hne
  obtain ⟨lines, hlines, hout⟩ := except_bind_ok.mp hout
  cases hout
  rw [decodeAll_message hlines, except_ok_bind, parse, except_map_ok, foldLines_encoded, texts]
  cases hcommands : req.commands with
  | nil => exact absurd (List.isEmpty_iff.mpr hcommands) hne
  | cons c cs =>
      have hc : Char.ofNat 0 ∉ c.name := hnames c (by rw [hcommands]; exact List.mem_cons_self)
      simp only [List.foldlM_cons, List.forall_mem_cons]
      constructor
      · rintro ⟨s, hs, rfl⟩
        obtain ⟨s₁, hs₁, hrest⟩ := except_bind_ok.mp hs
        obtain ⟨halgo, rfl⟩ := (line_firstText hc).mp hs₁
        obtain ⟨hall, rfl⟩ := (foldlM_commands rfl).mp hrest
        exact ⟨⟨halgo, hall⟩, rfl⟩
      · rintro ⟨⟨halgo, hall⟩, rfl⟩
        refine ⟨_, except_bind_ok.mpr ⟨_, (line_firstText hc).mpr ⟨halgo, rfl⟩,
          (foldlM_commands rfl).mpr ⟨hall, rfl⟩⟩, rfl⟩

/-- What the server reads of a push is the push. -/
def ReadBack (algo : HashAlgo) (req : PushRequest) : Prop :=
  ∀ out req', req.encode = .ok out → (decodeAll out >>= parse algo) = .ok req' → req' = req

/-- **A push is read back** just when it is not sent, is not read, or has no name with a space
and only capabilities that their text shows. -/
theorem readBack_iff {req : PushRequest} (hne : req.commands ≠ [])
    (hnames : ∀ c ∈ req.commands, Char.ofNat 0 ∉ c.name)
    (hcaps : ∀ item ∈ req.capabilities.items, ' ' ∉ item.1 ∧ ∀ value ∈ item.2, ' ' ∉ value) :
    ReadBack algo req ↔ (∃ l ∈ req.texts, ¬ Fits (l ++ ['\n'])) ∨
      (∃ c ∈ req.commands, ¬ OfAlgo algo c) ∨
      (∀ c ∈ req.commands, ' ' ∉ c.name) ∧
        ∀ item ∈ req.capabilities.items, '=' ∉ item.1 ∧ item ≠ ([], none) := by
  have hsent : (∃ out, req.encode = .ok out) ↔ ∀ l ∈ req.texts, Fits (l ++ ['\n']) := by
    rw [encode, if_neg (by simpa using hne), ← List.forall_mem_map (f := (· ++ ['\n'])),
      ← encodeLines_ok_iff]
    constructor
    · rintro ⟨out, hout⟩
      obtain ⟨lines, hlines, -⟩ := except_bind_ok.mp hout
      exact ⟨lines, hlines⟩
    · rintro ⟨lines, hlines⟩
      rw [hlines]
      exact ⟨_, rfl⟩
  have hsame : (⟨req.commands.map readCommand, Capabilities.parse req.capabilities.toWire⟩ :
    PushRequest) = req ↔
      (∀ c ∈ req.commands, ' ' ∉ c.name) ∧
        ∀ item ∈ req.capabilities.items, '=' ∉ item.1 ∧ item ≠ ([], none) := by
    obtain ⟨commands, capabilities⟩ := req
    rw [PushRequest.mk.injEq, Capabilities.parse_toWire_iff hcaps, map_readCommand]
  constructor
  · intro h
    by_contra hnot
    rw [not_or, not_or, ← hsame] at hnot
    obtain ⟨hfits, halgo, hnot⟩ := hnot
    obtain ⟨out, hout⟩ := hsent.mpr fun l hl => not_not.mp fun hl' => hfits ⟨l, hl, hl'⟩
    exact hnot (h out _ hout ((parse_encoded hnames hout).mpr
      ⟨fun c hc => not_not.mp fun hc' => halgo ⟨c, hc, hc'⟩, rfl⟩))
  · intro h out req' hout hread
    obtain ⟨halgo, rfl⟩ := (parse_encoded hnames hout).mp hread
    rcases h with ⟨l, hl, hfits⟩ | ⟨c, hc, hother⟩ | hplain
    · exact absurd (hsent.mp ⟨out, hout⟩ l hl) hfits
    · exact absurd (halgo c hc) hother
    · exact hsame.mpr hplain

/-- A branch is read back. -/
theorem readBack_branch : ReadBack .sha1
    ⟨[⟨ObjectId.zero .sha1, ObjectId.zero .sha1, str "refs/heads/a"⟩],
      ⟨[(str "report-status", none)]⟩⟩ :=
  (readBack_iff (by decide) (by decide) (by decide)).mpr (Or.inr (Or.inr (by decide)))

/-- Of a name with a space the server reads the part before it. -/
theorem not_readBack_space : ¬ ReadBack .sha1
    ⟨[⟨ObjectId.zero .sha1, ObjectId.zero .sha1, str "refs/heads/a b"⟩], Capabilities.new⟩ := by
  intro h
  obtain ⟨out, hout⟩ : ∃ out,
    encode ⟨[⟨ObjectId.zero .sha1, ObjectId.zero .sha1, str "refs/heads/a b"⟩],
      Capabilities.new⟩ = .ok out := ⟨_, rfl⟩
  have hread := h out ⟨[⟨ObjectId.zero .sha1, ObjectId.zero .sha1, str "refs/heads/a"⟩],
    Capabilities.new⟩ hout
    ((parse_encoded (by decide) hout).mpr (by decide))
  exact absurd hread (by decide)

end

end PushRequest
end Puregit
