import Puregit.Protocol.Lines
import Puregit.Refs.List
import Puregit.Server.Serve

/-! # Discovering the refs

A client learns the refs from the v0/v1 advertisement or by the v2 command `ls-refs`.
Both list HEAD and then the listed refs, built and parsed by code of their own.

The advertisement loses a ref whose name ends like a peeled line, and its first line
cannot carry a NUL, `discoverV0_iff`.  The answer to `ls-refs` loses the part of a name
after a space, and a HEAD that is not symbolic, `discoverV2_iff`.
-/
namespace Puregit.Server
open ObjectDatabase PktLine

variable {D : Type} [ObjectDatabase D] {odb : D} {refs : RefAccess}

/-! ## The two paths -/

/-- The refs `ls-refs` lists: a symbolic HEAD that resolves, and every listed ref. -/
def v2RefList (odb : D) (refs : RefAccess) : Except Error (List V2.LsRef) :=
  let head := match refs.lookup (str "HEAD"), refs.resolve (str "HEAD") with
    | .ok (.symbolic target), .ok id => [⟨str "HEAD", id, some target, peelTag odb id⟩]
    | _, _ => []
  refs.list.map fun listed => head ++ listed.toList.map fun b => ⟨b.1, b.2, none, peelTag odb b.2⟩

/-- What a client parses out of the advertisement. -/
def discoverV0 (odb : D) (refs : RefAccess) (agent : Str) (capabilities : List Str) :
    Except Error (List AdvertisedRef) := do
  let out ← advertiseRefs odb refs .uploadPack agent capabilities
  let packets ← decodeAll out
  let advert ← RefAdvertisement.parse (algo odb) packets
  .ok advert.refs

/-- What a client parses out of the answer to `ls-refs`. -/
def discoverV2 (odb : D) (refs : RefAccess) (command : V2.Command) :
    Except Error (List AdvertisedRef) := do
  let listed ← v2RefList odb refs
  let out ← V2.encodeLsRefsResponse command listed
  let packets ← decodeAll out
  V2.parseLsRefsResponse (algo odb) packets

/-- A name and an id, as a client has them. -/
def toAdvertised (ref : Str × ObjectId) : AdvertisedRef := ⟨ref.1, ref.2⟩

/-- The refs there are to discover. -/
def discoverable (refs : RefAccess) (listed : BTreeMap Str ObjectId) : List (Str × ObjectId) :=
  ((refs.resolve (str "HEAD")).toOption.map fun head => (str "HEAD", head)).toList ++ listed.toList

/-- The request for all refs, peeled, with the targets of symbolic ones. -/
structure ListsAll (command : V2.Command) : Prop where
  peel : command.hasArg (str "peel") = true
  symrefs : command.hasArg (str "symrefs") = true
  all : command.args.filterMap (stripPrefix? (str "ref-prefix ")) = []

/-! ## A line with an id and a name -/

/-- The line of a ref. -/
def refLine (ref : Str × ObjectId) : Str := ref.2.toHex ++ ' ' :: ref.1

theorem space_not_mem_toHex (id : ObjectId) : ' ' ∉ id.toHex := fun h =>
  (not_whitespace_of_mem_toHex h).2.1 rfl

/-- A ref line starts with a digit or one of the letters up to f. -/
theorem toUtf8_refLine_head (ref : Str × ObjectId) (more : Str) :
    ∃ b rest, toUtf8 (refLine ref ++ more) = b :: rest ∧ b.toNat ≤ 102 := by
  obtain ⟨c, rest, hhex, -, -⟩ := toHex_eq_cons ref.2
  have hrange := ObjectId.mem_toHex (o := ref.2) (c := c) (by rw [hhex]; exact List.mem_cons_self)
  have hbyte : utf8Char c = [UInt8.ofNat c.toNat] := by
    rw [utf8Char]
    exact if_pos (by omega)
  refine ⟨UInt8.ofNat c.toNat, toUtf8 (rest ++ ' ' :: ref.1 ++ more), ?_, ?_⟩
  · rw [refLine, hhex, List.cons_append, List.cons_append, toUtf8_cons, hbyte]
    rfl
  · rw [UInt8.toNat_ofNat_of_lt' (by simp [UInt8.size]; omega)]
    omega

/-- No ref line is one of a shallow boundary. -/
theorem not_shallow_refLine (ref : Str × ObjectId) :
    (bytes "shallow ").isPrefixOf (toUtf8 (refLine ref)) = false := by
  obtain ⟨b, rest, hline, hb⟩ := toUtf8_refLine_head ref []
  have hkeyword : bytes "shallow " = 115 :: bytes "hallow " := by decide
  have hne : (115 : UInt8) ≠ b := by
    rintro rfl
    revert hb
    decide
  rw [List.append_nil] at hline
  rw [hline, hkeyword, List.isPrefixOf, beq_false_of_ne hne, Bool.false_and]

/-- What ends a peeled line. -/
def peelMark : Str := str "^\x7b\x7d"

/-- A ref of this name is taken for a peeled line. -/
def LooksPeeled (name : Str) : Prop := endsWith name peelMark = true

instance (name : Str) : Decidable (LooksPeeled name) := inferInstanceAs (Decidable (_ = _))

/-- The refs that are not taken for peeled lines. -/
def kept (pairs : List (Str × ObjectId)) : List (Str × ObjectId) :=
  pairs.filter fun r => !endsWith r.1 peelMark

section Advertisement
variable {advert : RefAdvertisement}

theorem looksPeeled_placeholder :
    endsWith (str "capabilities^\x7b\x7d") peelMark = true := by decide

/-- A line that is not the first is a ref or a peeled line. -/
theorem line_refLine (ref : Str × ObjectId) :
    RefAdvertisement.line ⟨advert, false⟩ (toUtf8 (refLine ref)) =
      if endsWith ref.1 peelMark then .ok ⟨advert, false⟩
      else if advert.refs.length ≥ maxAdvertisedRefs then
        .error (.protocol (str "advert: too many refs"))
      else (ObjectId.fromHex advert.objectFormat ref.2.toHex).map fun id =>
        ⟨{ advert with refs := advert.refs ++ [⟨ref.1, id⟩] }, false⟩ := by
  have hshallow := not_shallow_refLine ref
  have hsplit : splitOnce ' ' (refLine ref) = some (ref.2.toHex, ref.1) :=
    splitOnce_eq_some.mpr ⟨rfl, space_not_mem_toHex ref.2⟩
  have hpeeled : (ref.1 = str "capabilities^\x7b\x7d" ∨ endsWith ref.1 (str "^\x7b\x7d") = true) ↔
      endsWith ref.1 peelMark = true := by
    constructor
    · rintro (h | h)
      · rw [h]
        exact looksPeeled_placeholder
      · exact h
    · exact Or.inr
  rw [RefAdvertisement.line]
  simp only [hshallow, splitCaps, utf8OrProtocol, fromUtf8_toUtf8, Bool.false_and, Bool.not_false,
    Bool.true_and, Bool.false_eq_true, if_false]
  simp only [bind, Except.bind, hsplit, hpeeled]
  split
  · rfl
  split
  · rfl
  cases ObjectId.fromHex advert.objectFormat ref.2.toHex <;> rfl

/-- A fold over ref lines keeps the refs that are not taken for peeled lines, if there
are not too many and their ids are of the expected algorithm. -/
theorem foldlM_refLines (pairs : List (Str × ObjectId)) (advert : RefAdvertisement)
    {s : RefAdvertisement.State} (hcount : advert.refs.length ≤ maxAdvertisedRefs) :
    (pairs.map refLine).foldlM (fun s l => RefAdvertisement.line s (toUtf8 l))
      ⟨advert, false⟩ = .ok s ↔
      s = ⟨{ advert with refs := advert.refs ++ (kept pairs).map toAdvertised }, false⟩ ∧
      (∀ r ∈ kept pairs, r.2.algo = advert.objectFormat) ∧
      advert.refs.length + (kept pairs).length ≤ maxAdvertisedRefs := by
  induction pairs generalizing advert with
  | nil =>
      constructor
      · intro h
        cases h
        simp [kept, hcount]
      · rintro ⟨rfl, -, -⟩
        simp [kept, pure, Except.pure]
  | cons ref pairs ih =>
      rw [List.map_cons, List.foldlM_cons, line_refLine]
      by_cases hpeeled : endsWith ref.1 peelMark = true
      · have hkept : kept (ref :: pairs) = kept pairs := by simp [kept, hpeeled]
        rw [if_pos hpeeled, hkept]
        exact ih _ hcount
      have hkept : kept (ref :: pairs) = ref :: kept pairs := by simp [kept, hpeeled]
      rw [if_neg hpeeled, hkept]
      by_cases hfull : advert.refs.length ≥ maxAdvertisedRefs
      · rw [if_pos hfull]
        constructor
        · intro h
          cases h
        · rintro ⟨-, -, hle⟩
          rw [List.length_cons] at hle
          omega
      rw [if_neg hfull, except_bind_ok]
      constructor
      · rintro ⟨s', hs', h⟩
        obtain ⟨id, hid, rfl⟩ := except_map_ok.mp hs'
        obtain ⟨halgo, rfl⟩ := ObjectId.fromHex_toHex_iff.mp hid
        have hcount' : (advert.refs ++ [toAdvertised ref]).length ≤ maxAdvertisedRefs := by
          rw [List.length_append, List.length_singleton]
          omega
        obtain ⟨rfl, halgos, hle⟩ := (ih _ hcount').mp h
        refine ⟨by simp [toAdvertised], List.forall_mem_cons.mpr ⟨halgo, halgos⟩, ?_⟩
        rw [List.length_append, List.length_singleton] at hle
        rw [List.length_cons]
        omega
      · rintro ⟨rfl, halgos, hle⟩
        obtain ⟨halgo, halgos⟩ := List.forall_mem_cons.mp halgos
        rw [List.length_cons] at hle
        refine ⟨_, except_map_ok.mpr ⟨ref.2, ObjectId.fromHex_toHex_iff.mpr ⟨halgo, rfl⟩, rfl⟩, ?_⟩
        have hcount' : (advert.refs ++ [toAdvertised ref]).length ≤ maxAdvertisedRefs := by
          rw [List.length_append, List.length_singleton]
          omega
        refine (ih _ hcount').mpr ⟨by simp [toAdvertised], halgos, ?_⟩
        rw [List.length_append, List.length_singleton]
        omega

/-- Only NUL is encoded with a zero byte. -/
theorem zero_mem_toUtf8 {s : Str} : (0 : UInt8) ∈ toUtf8 s ↔ Char.ofNat 0 ∈ s :=
  ascii_mem_toUtf8 (by decide)

/-- The capabilities behind the first line are read, and the line is then like any other. -/
theorem line_first {ref : Str × ObjectId} (hnul : Char.ofNat 0 ∉ ref.1) (caps : Str) :
    RefAdvertisement.line ⟨advert, true⟩ (toUtf8 (refLine ref ++ Char.ofNat 0 :: caps)) =
      RefAdvertisement.line ⟨{ advert with
        capabilities := Capabilities.parse caps
        objectFormat := (Capabilities.parse caps).objectFormat.getD advert.objectFormat }, false⟩
        (toUtf8 (refLine ref)) := by
  have hnul' : (0 : UInt8) ∉ toUtf8 (refLine ref) := by
    rw [zero_mem_toUtf8, refLine, List.mem_append, List.mem_cons]
    rintro (h | h | h)
    · have hrange := ObjectId.mem_toHex h
      simp at hrange
    · cases h
    · exact hnul h
  have hsplit : splitOnce 0 (toUtf8 (refLine ref ++ Char.ofNat 0 :: caps)) =
      some (toUtf8 (refLine ref), toUtf8 caps) := by
    rw [splitOnce_eq_some, toUtf8_append, toUtf8_cons]
    exact ⟨rfl, hnul'⟩
  have hversion : (toUtf8 (refLine ref ++ Char.ofNat 0 :: caps) == bytes "version 1") = false := by
    obtain ⟨b, rest, hline, hb⟩ := toUtf8_refLine_head ref (Char.ofNat 0 :: caps)
    have hkeyword : bytes "version 1" = 118 :: bytes "ersion 1" := by decide
    rw [hline, hkeyword, beq_eq_false_iff_ne]
    intro h
    obtain ⟨rfl, -⟩ := List.cons.inj h
    revert hb
    decide
  have hshallow := not_shallow_refLine ref
  rw [RefAdvertisement.line, RefAdvertisement.line]
  simp only [hversion, hshallow, splitCaps, hsplit, utf8OrProtocol, fromUtf8_toUtf8, Bool.not_true,
    Bool.false_and, Bool.and_false, Bool.false_eq_true, if_true, if_false]
  rfl

end Advertisement

/-! ## Through the advertisement -/

/-- A ref, and what the tag it names peels to. -/
def withPeeled (odb : D) (ref : Str × ObjectId) : List (Str × ObjectId) :=
  ref :: ((peelTag odb ref.2).map fun p => (ref.1 ++ peelMark, p)).toList

theorem endsWith_peelMark (name : Str) : endsWith (name ++ peelMark) peelMark = true := by
  rw [endsWith, List.isSuffixOf_iff_suffix]
  exact List.suffix_append name peelMark

theorem kept_append (a b : List (Str × ObjectId)) : kept (a ++ b) = kept a ++ kept b :=
  List.filter_append ..

theorem kept_withPeeled (odb : D) (ref : Str × ObjectId) :
    kept (withPeeled odb ref) = kept [ref] := by
  rw [withPeeled, ← List.singleton_append, kept_append]
  cases peelTag odb ref.2 with
  | none => exact List.append_nil _
  | some p => simp [kept, endsWith_peelMark]

theorem kept_flatMap_withPeeled (odb : D) (listed : List (Str × ObjectId)) :
    kept (listed.flatMap (withPeeled odb)) = kept listed := by
  induction listed with
  | nil => rfl
  | cons ref listed ih =>
      rw [List.flatMap_cons, kept_append, ih, kept_withPeeled, ← kept_append, List.singleton_append]

theorem kept_eq_self {pairs : List (Str × ObjectId)} :
    kept pairs = pairs ↔ ∀ r ∈ pairs, ¬ LooksPeeled r.1 := by
  rw [kept, List.filter_eq_self]
  simp only [LooksPeeled, Bool.not_eq_true, Bool.not_eq_true']

/-- The refs and peeled ids of an advertisement; the placeholder stands for none. -/
def advertPairs (odb : D) (refs : RefAccess) (listed : BTreeMap Str ObjectId) :
    List (Str × ObjectId) :=
  match ((refs.resolve (str "HEAD")).toOption.map fun head => (str "HEAD", head)).toList ++
      listed.toList.flatMap (withPeeled odb) with
  | [] => [(str "capabilities^\x7b\x7d", ObjectId.zero (algo odb))]
  | pairs => pairs

/-- The lines of ref lines with the capabilities behind the first. -/
def withCaps (caps : Str) : List (Str × ObjectId) → List Str
  | [] => []
  | first :: rest => (refLine first ++ Char.ofNat 0 :: caps) :: rest.map refLine

section
variable {agent : Str} {capabilities : List Str} {listed : BTreeMap Str ObjectId}

theorem listedLines_eq (listed : List (Str × ObjectId)) :
    listedLines odb .uploadPack listed = (listed.flatMap (withPeeled odb)).map refLine := by
  rw [listedLines, List.map_flatMap]
  congr 1
  funext ref
  rw [withPeeled, List.map_cons]
  cases peelTag odb ref.2 with
  | none => rfl
  | some p =>
      simp only [Option.map_some, Option.toList_some, List.map_cons, List.map_nil,
        refLine, peelMark,
        List.append_assoc, List.cons_append]

/-- The advertisement is the encoding of these lines. -/
theorem advertiseRefs_eq (h : refs.list = .ok listed) :
    advertiseRefs odb refs .uploadPack agent capabilities =
      (ReportStatus.encodeLines
        ((withCaps (advertisedCaps odb refs listed .uploadPack agent capabilities)
        (advertPairs odb refs listed)).map (· ++ ['\n']))).map (· ++ flushPkt) := by
  have hhead : ((refs.resolve (str "HEAD")).toOption.map fun id => id.toHex ++ str " HEAD").toList =
      ((refs.resolve (str "HEAD")).toOption.map fun head =>
        (str "HEAD", head)).toList.map refLine := by
    cases refs.resolve (str "HEAD") <;> rfl
  rw [advertiseRefs, h]
  show (ReportStatus.encodeLines _ >>= _) = _
  rw [hhead, listedLines_eq, ← List.map_append, advertPairs]
  cases ((refs.resolve (str "HEAD")).toOption.map fun head => (str "HEAD", head)).toList ++
      listed.toList.flatMap (withPeeled odb) with
  | nil =>
      show (ReportStatus.encodeLines _ >>= _) = _
      rw [except_bind_pure]
      congr 1
  | cons first rest =>
      show (ReportStatus.encodeLines _ >>= _) = _
      rw [except_bind_pure]
      rfl

/-- The advertisement carries every ref. -/
structure AdvertisesAll (odb : D) (refs : RefAccess) (agent : Str) (capabilities : List Str)
    (listed : BTreeMap Str ObjectId) : Prop where
  fits : ∀ l ∈ withCaps (advertisedCaps odb refs listed .uploadPack agent capabilities)
    (advertPairs odb refs listed), Fits (l ++ ['\n'])
  names : ∀ r ∈ discoverable refs listed, ¬ LooksPeeled r.1
  first : ∀ r ∈ (discoverable refs listed).head?, Char.ofNat 0 ∉ r.1
  count : (discoverable refs listed).length ≤ maxAdvertisedRefs
  algo : ∀ r ∈ discoverable refs listed, r.2.algo =
    (Capabilities.parse
      (advertisedCaps odb refs listed .uploadPack agent capabilities)).objectFormat.getD
        (ObjectDatabase.algo odb)

/-- The lines of an advertisement, folded over. -/
def readAdvert (algo : HashAlgo) (lines : List Str) : Except Error RefAdvertisement.State :=
  lines.foldlM (fun s l => RefAdvertisement.line s (toUtf8 l)) ⟨⟨[], Capabilities.new, algo⟩, true⟩

/-- What is discovered is what the lines are read as, if they can be written. -/
theorem discoverV0_ok (h : refs.list = .ok listed) {found : List AdvertisedRef} :
    discoverV0 odb refs agent capabilities = .ok found ↔
      (∀ l ∈ withCaps (advertisedCaps odb refs listed .uploadPack agent capabilities)
        (advertPairs odb refs listed), Fits (l ++ ['\n'])) ∧
      ∃ s, readAdvert (ObjectDatabase.algo odb)
        (withCaps (advertisedCaps odb refs listed .uploadPack agent capabilities)
          (advertPairs odb refs listed)) = .ok s ∧ s.advert.refs = found := by
  generalize hlines : withCaps (advertisedCaps odb refs listed .uploadPack agent capabilities)
    (advertPairs odb refs listed) = lines
  have hfits : (∀ l ∈ lines, Fits (l ++ ['\n'])) ↔ ∀ l ∈ lines.map (· ++ ['\n']), Fits l := by
    simp
  rw [hfits, ← encodeLines_ok_iff, discoverV0, advertiseRefs_eq h, hlines]
  constructor
  · intro hok
    obtain ⟨out, hout, hok⟩ := except_bind_ok.mp hok
    obtain ⟨body, hbody, rfl⟩ := except_map_ok.mp hout
    obtain ⟨packets, hpackets, hok⟩ := except_bind_ok.mp hok
    obtain ⟨advert, hadvert, hok⟩ := except_bind_ok.mp hok
    rw [decodeAll_message hbody] at hpackets
    cases hpackets
    rw [RefAdvertisement.parse, foldLines_encoded] at hadvert
    obtain ⟨s, hs, rfl⟩ := except_map_ok.mp hadvert
    cases hok
    exact ⟨⟨body, hbody⟩, s, hs, rfl⟩
  · rintro ⟨⟨body, hbody⟩, s, hs, rfl⟩
    refine except_bind_ok.mpr ⟨_, except_map_ok.mpr ⟨body, hbody, rfl⟩, ?_⟩
    refine except_bind_ok.mpr ⟨_, decodeAll_message hbody, ?_⟩
    refine except_bind_ok.mpr ⟨s.advert, ?_, rfl⟩
    rw [RefAdvertisement.parse, foldLines_encoded]
    exact except_map_ok.mpr ⟨s, hs, rfl⟩

/-- The lines are read as the refs they are of, if the first has no NUL. -/
theorem readAdvert_withCaps {algo : HashAlgo} {caps : Str} {pairs : List (Str × ObjectId)}
    (hne : pairs ≠ []) (hnul : ∀ r ∈ pairs.head?, Char.ofNat 0 ∉ r.1) {s : RefAdvertisement.State} :
    readAdvert algo (withCaps caps pairs) = .ok s ↔
      s = ⟨⟨(kept pairs).map toAdvertised, Capabilities.parse caps,
        (Capabilities.parse caps).objectFormat.getD algo⟩, false⟩ ∧
      (∀ r ∈ kept pairs, r.2.algo = (Capabilities.parse caps).objectFormat.getD algo) ∧
      (kept pairs).length ≤ maxAdvertisedRefs := by
  obtain ⟨first, rest, rfl⟩ := List.exists_cons_of_ne_nil hne
  rw [readAdvert, withCaps, List.foldlM_cons, line_first (hnul first rfl)]
  have hfold := foldlM_refLines (first :: rest)
    ⟨[], Capabilities.parse caps, (Capabilities.parse caps).objectFormat.getD algo⟩ (s := s)
    (Nat.zero_le _)
  rw [List.map_cons, List.foldlM_cons] at hfold
  refine hfold.trans ?_
  simp only [List.nil_append, List.length_nil, Nat.zero_add]

theorem advertPairs_nil (odb : D) (h : discoverable refs listed = []) :
    advertPairs odb refs listed =
      [(str "capabilities^\x7b\x7d", ObjectId.zero (ObjectDatabase.algo odb))] := by
  obtain ⟨hhead, hlisted⟩ := List.append_eq_nil_iff.mp h
  rw [advertPairs, hhead, hlisted]
  rfl

/-- The first ref comes first, and the peeled ids after it are not kept. -/
theorem advertPairs_cons (odb : D) {r : Str × ObjectId} {rest : List (Str × ObjectId)}
    (h : discoverable refs listed = r :: rest) :
    ∃ more, advertPairs odb refs listed = r :: more ∧ kept more = kept rest := by
  unfold discoverable at h
  unfold advertPairs
  cases hhead : (refs.resolve (str "HEAD")).toOption.map fun head => (str "HEAD", head) with
  | some head =>
      rw [hhead] at h
      obtain ⟨rfl, rfl⟩ := List.cons.inj h
      exact ⟨_, rfl, kept_flatMap_withPeeled odb _⟩
  | none =>
      rw [hhead] at h
      have hlisted : listed.toList = r :: rest := h
      rw [hlisted, List.flatMap_cons, withPeeled]
      refine ⟨_, rfl, ?_⟩
      have hpeeled : kept ((peelTag odb r.2).map fun p => (r.1 ++ peelMark, p)).toList = [] := by
        cases peelTag odb r.2 with
        | none => rfl
        | some p => simp [kept, endsWith_peelMark]
      show kept (_ ++ _) = _
      rw [kept_append, hpeeled, kept_flatMap_withPeeled]
      rfl

theorem toAdvertised_injective : Function.Injective toAdvertised := by
  intro a b h
  obtain ⟨hname, hid⟩ := AdvertisedRef.mk.inj h
  exact Prod.ext hname hid

/-- A NUL in the first name cuts the name, so the refs are not read back. -/
theorem no_nul_of_readAdvert {algo : HashAlgo} {caps : Str} {r : Str × ObjectId}
    {rest more : List (Str × ObjectId)} (hmore : kept more = kept rest) {s : RefAdvertisement.State}
    (hs : readAdvert algo (withCaps caps (r :: more)) = .ok s)
    (hrefs : s.advert.refs = (r :: rest).map toAdvertised) : Char.ofNat 0 ∉ r.1 := by
  intro hnul
  obtain ⟨pre, post, hname, hpre⟩ := List.eq_append_cons_of_mem hnul
  have hcut : withCaps caps (r :: more) = withCaps (post ++ Char.ofNat 0 :: caps)
      ((pre, r.2) :: more) := by
    simp only [withCaps, refLine, hname, List.append_assoc, List.cons_append]
  rw [hcut] at hs
  obtain ⟨rfl, -, -⟩ := (readAdvert_withCaps (List.cons_ne_nil _ _)
    (by simpa using hpre)).mp hs
  have hkept : kept ((pre, r.2) :: more) = r :: rest :=
    List.map_injective_iff.mpr toAdvertised_injective hrefs
  rw [← List.singleton_append, kept_append, hmore] at hkept
  by_cases hpeeled : endsWith pre peelMark = true
  · have hnone : kept [(pre, r.2)] = [] := by simp [kept, hpeeled]
    have hlen : (kept rest).length ≤ rest.length := List.length_filter_le ..
    rw [hnone, List.nil_append] at hkept
    rw [hkept, List.length_cons] at hlen
    omega
  · have hone : kept [(pre, r.2)] = [(pre, r.2)] := by simp [kept, hpeeled]
    rw [hone, List.singleton_append] at hkept
    obtain ⟨hr, -⟩ := List.cons.inj hkept
    have hlen := congrArg (·.1.length) hr
    simp only [hname, List.length_append, List.length_cons] at hlen
    omega

/-- **The advertisement is read back as the refs just when it carries them all.** -/
theorem discoverV0_iff (refs : RefAccess) (h : refs.list = .ok listed) :
    discoverV0 odb refs agent capabilities = .ok ((discoverable refs listed).map toAdvertised) ↔
      AdvertisesAll odb refs agent capabilities listed := by
  rw [discoverV0_ok h]
  cases hrefs : discoverable refs listed with
  | nil =>
      have hpairs := advertPairs_nil odb hrefs
      have hnul : ∀ r ∈ (advertPairs odb refs listed).head?, Char.ofNat 0 ∉ r.1 := by
        rw [hpairs]
        simp [str]
      have hkept : kept (advertPairs odb refs listed) = [] := by
        rw [hpairs]
        simp [kept, looksPeeled_placeholder]
      have hne : advertPairs odb refs listed ≠ [] := by
        rw [hpairs]
        exact List.cons_ne_nil _ _
      constructor
      · rintro ⟨hfits, -⟩
        exact ⟨hfits, by simp [hrefs], by simp [hrefs], by simp [hrefs], by simp [hrefs]⟩
      · intro hall
        refine ⟨hall.fits, _, (readAdvert_withCaps hne hnul).mpr ⟨rfl, ?_, ?_⟩, ?_⟩
        · simp [hkept]
        · simp [hkept]
        · simp [hkept]
  | cons r rest =>
      obtain ⟨more, hpairs, hmore⟩ := advertPairs_cons odb hrefs
      have hkept : kept (r :: more) = kept (r :: rest) := by
        rw [← List.singleton_append, kept_append, hmore, ← kept_append, List.singleton_append]
      constructor
      · rintro ⟨hfits, s, hs, hfound⟩
        have hs' := hs
        rw [hpairs] at hs'
        have hnul := no_nul_of_readAdvert hmore hs' hfound
        obtain ⟨rfl, halgo, hcount⟩ :=
          (readAdvert_withCaps (List.cons_ne_nil _ _) (by simpa using hnul)).mp hs'
        rw [hkept] at halgo hcount hfound
        have hself : kept (r :: rest) = r :: rest :=
          List.map_injective_iff.mpr toAdvertised_injective hfound
        rw [hself] at halgo hcount
        refine ⟨hfits, ?_, ?_, ?_, ?_⟩
        · rw [hrefs]
          exact kept_eq_self.mp hself
        · rw [hrefs]
          simpa using hnul
        · rw [hrefs]
          exact hcount
        · rw [hrefs]
          exact halgo
      · rintro ⟨hfits, hnames, hnul, hcount, halgo⟩
        rw [hrefs] at hnames hnul hcount halgo
        have hself := kept_eq_self.mpr hnames
        rw [← hself, ← hkept] at halgo hcount
        have hread := (readAdvert_withCaps (List.cons_ne_nil r more) hnul).mpr ⟨rfl, halgo, hcount⟩
        rw [← hpairs] at hread
        refine ⟨hfits, _, hread, ?_⟩
        show (kept (advertPairs odb refs listed)).map toAdvertised = _
        rw [hpairs, hkept, hself]

end

/-! ## Through `ls-refs` -/

/-- A name up to its first space. -/
def firstWord (name : Str) : Str := name.takeWhile (· != ' ')

theorem firstWord_eq_self {name : Str} : firstWord name = name ↔ ' ' ∉ name := by
  rw [firstWord, List.takeWhile_eq_self_iff]
  constructor
  · intro h hmem
    have hspace := h ' ' hmem
    simp at hspace
  · intro h c hc
    rw [bne_iff_ne]
    rintro rfl
    exact h hc

theorem firstWord_append_space (name more : Str) :
    firstWord (name ++ ' ' :: more) = firstWord name := by
  induction name with
  | nil => rfl
  | cons c name ih =>
      unfold firstWord at ih ⊢
      rw [List.cons_append, List.takeWhile_cons, List.takeWhile_cons, ih]

theorem splitOn_space (s : Str) : ∃ more, s.splitOn ' ' = firstWord s :: more := by
  by_cases h : ' ' ∈ s
  · obtain ⟨word, more, rfl, hword⟩ := List.eq_append_cons_of_mem h
    refine ⟨more.splitOn ' ', ?_⟩
    rw [firstWord_append_space, firstWord_eq_self.mpr hword,
      List.splitOn_append_cons_self_of_not_mem hword]
  · refine ⟨[], ?_⟩
    rw [firstWord_eq_self.mpr h, List.splitOn_eq_singleton h]

/-- The line of a listed ref is its id, its name and attributes after a space. -/
theorem lsRefLine_eq (symrefs peel : Bool) (r : V2.LsRef) :
    ∃ attrs, V2.lsRefLine symrefs peel r = r.id.toHex ++ ' ' :: (r.name ++ attrs) ∧
      firstWord (r.name ++ attrs) = firstWord r.name := by
  unfold V2.lsRefLine
  extract_lets target peeled
  have htarget : target = [] ∨ ∃ t, target = ' ' :: t := by
    unfold target
    split
    · exact Or.inr ⟨_, rfl⟩
    · exact Or.inl rfl
  have hpeeled : peeled = [] ∨ ∃ t, peeled = ' ' :: t := by
    unfold peeled
    split
    · exact Or.inr ⟨_, rfl⟩
    · exact Or.inl rfl
  refine ⟨target ++ peeled, by simp only [List.append_assoc, List.cons_append], ?_⟩
  rcases htarget with h | ⟨t, h⟩
  · rcases hpeeled with h' | ⟨t', h'⟩
    · rw [h, h', List.append_nil, List.append_nil]
    · rw [h, h', List.nil_append, firstWord_append_space]
  · rw [h, List.cons_append, firstWord_append_space]

/-- A line is read as the id and the name up to its first space. -/
theorem lsRefsLine_encoded (algo : HashAlgo) (found : List AdvertisedRef) (symrefs peel : Bool)
    (r : V2.LsRef) : V2.lsRefsLine algo found (toUtf8 (V2.lsRefLine symrefs peel r)) =
      (ObjectId.fromHex algo r.id.toHex).map fun id => found ++ [⟨firstWord r.name, id⟩] := by
  obtain ⟨attrs, hline, hword⟩ := lsRefLine_eq symrefs peel r
  obtain ⟨more, hsplit⟩ := splitOn_space (r.name ++ attrs)
  rw [V2.lsRefsLine, utf8OrProtocol, fromUtf8_toUtf8, hline]
  simp only [bind, Except.bind]
  rw [List.splitOn_append_cons_self_of_not_mem (space_not_mem_toHex r.id), hsplit, hword]

/-- What a client has of a listed ref. -/
def asRead (r : V2.LsRef) : AdvertisedRef := ⟨firstWord r.name, r.id⟩

/-- A fold over the lines keeps every ref, if the ids are of the expected algorithm. -/
theorem foldlM_lsRefs {algo : HashAlgo} {symrefs peel : Bool} {listed : List V2.LsRef}
    {found s : List AdvertisedRef} :
    (listed.map (V2.lsRefLine symrefs peel)).foldlM
        (fun found l => V2.lsRefsLine algo found (toUtf8 l)) found = .ok s ↔
      s = found ++ listed.map asRead ∧ ∀ r ∈ listed, r.id.algo = algo := by
  induction listed generalizing found with
  | nil =>
      rw [List.map_nil, List.foldlM_nil, List.map_nil, List.append_nil]
      constructor
      · intro h
        cases h
        exact ⟨rfl, by simp⟩
      · rintro ⟨rfl, -⟩
        rfl
  | cons r listed ih =>
      rw [List.map_cons, List.foldlM_cons, lsRefsLine_encoded, except_bind_ok]
      constructor
      · rintro ⟨s', hs', h⟩
        obtain ⟨id, hid, rfl⟩ := except_map_ok.mp hs'
        obtain ⟨halgo, rfl⟩ := ObjectId.fromHex_toHex_iff.mp hid
        obtain ⟨rfl, halgos⟩ := ih.mp h
        exact ⟨by simp [asRead], List.forall_mem_cons.mpr ⟨halgo, halgos⟩⟩
      · rintro ⟨rfl, halgos⟩
        obtain ⟨halgo, halgos⟩ := List.forall_mem_cons.mp halgos
        refine ⟨_, except_map_ok.mpr ⟨r.id, ObjectId.fromHex_toHex_iff.mpr ⟨halgo, rfl⟩, rfl⟩, ?_⟩
        exact ih.mpr ⟨by simp [asRead], halgos⟩

section
variable {listed : BTreeMap Str ObjectId} {command : V2.Command}

/-- HEAD is symbolic, if it resolves. -/
def SymbolicHead (refs : RefAccess) : Prop :=
  ∀ id, refs.resolve (str "HEAD") = .ok id → ∃ target, refs.lookup (str "HEAD") =
    .ok (.symbolic target)

/-- The name and the id of a listed ref. -/
def pairOf (r : V2.LsRef) : Str × ObjectId := (r.name, r.id)

/-- `ls-refs` lists all there is to discover, or all but a HEAD that is not symbolic. -/
theorem v2RefList_eq (odb : D) (h : refs.list = .ok listed) :
    ∃ every, v2RefList odb refs = .ok every ∧
    (SymbolicHead refs → every.map pairOf = discoverable refs listed) ∧
    (¬ SymbolicHead refs → every.length < (discoverable refs listed).length) := by
  have htail : ((listed.toList.map fun b => (⟨b.1, b.2, none, peelTag odb b.2⟩ : V2.LsRef))).map
    pairOf =
      listed.toList := by
    rw [List.map_map]
    exact List.map_id _
  rw [v2RefList, h]
  refine ⟨_, rfl, fun hsymbolic => ?_, fun hdetached => ?_⟩
  · rw [List.map_append, htail, discoverable]
    cases hr : refs.resolve (str "HEAD") with
    | error e =>
        split
        · rename_i target id hl hid
          cases hid
        · rfl
    | ok id =>
        obtain ⟨target, hl⟩ := hsymbolic id hr
        rw [hl]
        rfl
  · unfold SymbolicHead at hdetached
    push Not at hdetached
    obtain ⟨id, hr, hl⟩ := hdetached
    have hnone : (match refs.lookup (str "HEAD"), refs.resolve (str "HEAD") with
        | .ok (.symbolic target), .ok id =>
            [(⟨str "HEAD", id, some target, peelTag odb id⟩ : V2.LsRef)]
        | _, _ => []) = [] := by
      split
      · rename_i target id' hsymbolic hid
        exact absurd hsymbolic (hl target)
      · rfl
    rw [hnone, discoverable, hr]
    simp [Except.toOption]

/-- The answer to `ls-refs` carries every ref. -/
structure ListsEvery (odb : D) (refs : RefAccess) (command : V2.Command)
    (listed : BTreeMap Str ObjectId) : Prop where
  fits : ∀ every, v2RefList odb refs = .ok every →
    ∀ r ∈ every, Fits (V2.lsRefLine true true r ++ ['\n'])
  head : SymbolicHead refs
  names : ∀ r ∈ discoverable refs listed, ' ' ∉ r.1
  algo : ∀ r ∈ discoverable refs listed, r.2.algo = ObjectDatabase.algo odb

/-- What is discovered is what the lines are read as, if they can be written. -/
theorem discoverV2_ok (hall : ListsAll command) {every : List V2.LsRef}
    (h : v2RefList odb refs = .ok every) {found : List AdvertisedRef} :
    discoverV2 odb refs command = .ok found ↔
      (∀ r ∈ every, Fits (V2.lsRefLine true true r ++ ['\n'])) ∧
      found = every.map asRead ∧ ∀ r ∈ every, r.id.algo = ObjectDatabase.algo odb := by
  have hencode : V2.encodeLsRefsResponse command every =
      (ReportStatus.encodeLines ((every.map (V2.lsRefLine true true)).map (· ++ ['\n']))).map
        (· ++ flushPkt) := by
    rw [V2.encodeLsRefsResponse, hall.peel, hall.symrefs, hall.all]
    simp only [List.isEmpty_nil, Bool.true_or, List.filter_true, List.map_map]
    exact except_bind_pure
  have hfits : (∀ r ∈ every, Fits (V2.lsRefLine true true r ++ ['\n'])) ↔
      ∀ l ∈ (every.map (V2.lsRefLine true true)).map (· ++ ['\n']), Fits l := by
    simp
  rw [hfits, ← encodeLines_ok_iff, discoverV2, h]
  constructor
  · intro hok
    obtain ⟨every', heq, hok⟩ := except_bind_ok.mp hok
    cases heq
    obtain ⟨out, hout, hok⟩ := except_bind_ok.mp hok
    rw [hencode] at hout
    obtain ⟨body, hbody, rfl⟩ := except_map_ok.mp hout
    obtain ⟨packets, hpackets, hok⟩ := except_bind_ok.mp hok
    rw [decodeAll_message hbody] at hpackets
    cases hpackets
    rw [V2.parseLsRefsResponse, foldLines_encoded] at hok
    exact ⟨⟨body, hbody⟩, foldlM_lsRefs.mp hok⟩
  · rintro ⟨⟨body, hbody⟩, hfound⟩
    refine except_bind_ok.mpr ⟨every, rfl, except_bind_ok.mpr ⟨body ++ flushPkt, ?_, ?_⟩⟩
    · rw [hencode]
      exact except_map_ok.mpr ⟨body, hbody, rfl⟩
    · refine except_bind_ok.mpr ⟨_, decodeAll_message hbody, ?_⟩
      rw [V2.parseLsRefsResponse, foldLines_encoded]
      exact foldlM_lsRefs.mpr hfound

/-- **The answer to `ls-refs` is read back as the refs just when it carries them all.** -/
theorem discoverV2_iff (refs : RefAccess) (h : refs.list = .ok listed) (hall : ListsAll command) :
    discoverV2 odb refs command = .ok ((discoverable refs listed).map toAdvertised) ↔
      ListsEvery odb refs command listed := by
  obtain ⟨every, hevery, hsymbolic, hdetached⟩ := v2RefList_eq odb h
  rw [discoverV2_ok hall hevery]
  by_cases hhead : SymbolicHead refs
  · have hpairs := hsymbolic hhead
    have hread : every.map asRead =
        (discoverable refs listed).map fun r => ⟨firstWord r.1, r.2⟩ := by
      rw [← hpairs, List.map_map]
      rfl
    have hnames : (discoverable refs listed).map toAdvertised = every.map asRead ↔
        ∀ r ∈ discoverable refs listed, ' ' ∉ r.1 := by
      rw [hread, List.map_inj_left]
      constructor
      · intro heq r hr
        exact firstWord_eq_self.mp (AdvertisedRef.mk.inj (heq r hr)).1.symm
      · intro hspace r hr
        rw [toAdvertised, firstWord_eq_self.mpr (hspace r hr)]
    have halgos : (∀ r ∈ every, r.id.algo = ObjectDatabase.algo odb) ↔
        ∀ r ∈ discoverable refs listed, r.2.algo = ObjectDatabase.algo odb := by
      rw [← hpairs, List.forall_mem_map]
      rfl
    rw [hnames, halgos]
    constructor
    · rintro ⟨hfits, hspace, halgo⟩
      refine ⟨fun every' he => ?_, hhead, hspace, halgo⟩
      rw [hevery] at he
      cases he
      exact hfits
    · rintro ⟨hfits, -, hspace, halgo⟩
      exact ⟨hfits every hevery, hspace, halgo⟩
  · constructor
    · rintro ⟨-, hfound, -⟩
      have hlen := congrArg List.length hfound
      rw [List.length_map, List.length_map] at hlen
      have hlt := hdetached hhead
      omega
    · rintro ⟨-, hhead', -, -⟩
      exact absurd hhead' hhead

end

/-! ## Both paths -/

/-- The refs of a store, as a server reads them. -/
def accessOf (refs : RefStore) : RefAccess := ⟨refs.lookup, refs.resolve, refs.list⟩

/-- **Both paths describe the refs just when each carries them all**, in its own way. -/
theorem discovery_agrees_iff (odb : D) {refs : RefStore} {listed : BTreeMap Str ObjectId}
    {command : V2.Command} (agent : Str) (capabilities : List Str) (h : refs.list = .ok listed)
    (hall : ListsAll command) :
    (discoverV0 odb (accessOf refs) agent capabilities =
        .ok ((discoverable (accessOf refs) listed).map toAdvertised) ∧
      discoverV2 odb (accessOf refs) command =
        .ok ((discoverable (accessOf refs) listed).map toAdvertised)) ↔
      AdvertisesAll odb (accessOf refs) agent capabilities listed ∧
      ListsEvery odb (accessOf refs) command listed :=
  and_congr (discoverV0_iff (accessOf refs) h) (discoverV2_iff (accessOf refs) h hall)

namespace FetchSample

/-- The request for all refs. -/
def listAll : V2.Command := ⟨str "ls-refs", [], [str "peel", str "symrefs"]⟩

theorem listAll_all : ListsAll listAll := ⟨by decide, by decide, by decide⟩

/-- A store with one branch, where HEAD points. -/
def onMain : RefStore :=
  ((⟨FileTree.empty, .sha1⟩ : RefStore).update (str "HEAD")
    (.symbolic (str "refs/heads/main"))).2.update
    (str "refs/heads/main") (.direct recent) |>.2

/-- A store whose HEAD is detached. -/
def detached : RefStore :=
  ((⟨FileTree.empty, .sha1⟩ : RefStore).update (str "HEAD") (.direct recent)).2

/-- What the two paths find, beside what there is to be found. -/
theorem onMain_found : onMain.list.toOption.map (fun listed =>
      decide (((discoverable (accessOf onMain) listed).map toAdvertised).length = 2 ∧
        (discoverV0 store (accessOf onMain) (str "puregit") []).toOption =
          some ((discoverable (accessOf onMain) listed).map toAdvertised) ∧
        (discoverV2 store (accessOf onMain) listAll).toOption =
          some ((discoverable (accessOf onMain) listed).map toAdvertised))) = some true := by
  decide +kernel

/-- Both paths describe HEAD and the branch. -/
theorem discovery_agrees_onMain : ∃ listed, onMain.list = .ok listed ∧
    AdvertisesAll store (accessOf onMain) (str "puregit") [] listed ∧
    ListsEvery store (accessOf onMain) listAll listed ∧
    discoverV0 store (accessOf onMain) (str "puregit") [] =
      .ok ((discoverable (accessOf onMain) listed).map toAdvertised) ∧
    discoverV2 store (accessOf onMain) listAll =
      .ok ((discoverable (accessOf onMain) listed).map toAdvertised) ∧
    (discoverable (accessOf onMain) listed).length = 2 := by
  obtain ⟨listed, h, hfound⟩ := Option.map_eq_some_iff.mp onMain_found
  obtain ⟨hcount, hv0, hv2⟩ := of_decide_eq_true hfound
  have hlist : onMain.list = .ok listed := toOption_eq_some.mp h
  have hagrees := discovery_agrees_iff store (str "puregit") [] hlist listAll_all
  rw [toOption_eq_some] at hv0 hv2
  rw [List.length_map] at hcount
  obtain ⟨hadvertises, hlists⟩ := hagrees.mp ⟨hv0, hv2⟩
  exact ⟨listed, hlist, hadvertises, hlists, hv0, hv2, hcount⟩

/-- A detached HEAD is discovered by the advertisement and not by `ls-refs`. -/
theorem detached_head_differs : ∃ listed, detached.list = .ok listed ∧
    discoverV0 store (accessOf detached) (str "puregit") [] =
      .ok ((discoverable (accessOf detached) listed).map toAdvertised) ∧
    discoverV2 store (accessOf detached) listAll ≠
      .ok ((discoverable (accessOf detached) listed).map toAdvertised) := by
  obtain ⟨listed, h⟩ := exists_ok (x := detached.list) (by decide)
  have hempty : listed.toList = [] := by
    have hmap : (detached.list).toOption.map (·.toList) = some [] := by decide
    rw [h] at hmap
    exact Option.some.inj hmap
  have hfound : discoverable (accessOf detached) listed = [(str "HEAD", recent)] := by
    rw [discoverable, hempty]
    decide
  refine ⟨listed, h, ?_⟩
  rw [hfound]
  exact ⟨by decide, by decide⟩

end FetchSample

end Puregit.Server
